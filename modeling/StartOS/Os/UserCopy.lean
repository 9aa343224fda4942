import StartOS.Os.ExecTotal

/-! # Buffers of system calls

`argaddr` loads the page that a pointer argument points into, and no other. The
copies look at the page table only, so a buffer is copied as a whole exactly
when its later pages are already there.
-/

namespace StartOS

namespace MemAllocator

/-- The loop of `copyin`, with the bytes copied so far. -/
def copyinFrom (s : MemAllocator) (pagetable : ℕ) :
    ℕ → ℕ → ℕ → List UInt8 → Kernel (ℤ × List UInt8)
  | 0, _, _, _ => .error .hang
  | fuel + 1, vsrc, len, dst =>
    if len = 0 then return (0, dst)
    else do
      let va0 := pgRoundDown vsrc
      let pa0 ← s.walkAddr pagetable va0
      if pa0 = 0 then return (-1, dst)
      let n := min (pgSize - (vsrc - va0)) len
      copyinFrom s pagetable fuel ((vsrc + n) % 2 ^ 64) (len - n)
        (dst ++ (List.range n).map fun j => s.mem (pa0 + (vsrc - va0) + j))

def copyin (s : MemAllocator) (pagetable vsrc len : ℕ) : Kernel (ℤ × List UInt8) :=
  s.copyinFrom pagetable (len + 1) vsrc len []

/-- A buffer is written in pieces, as the file layers hand it on: `either_copyout` of each piece
until one fails. -/
def copyoutParts (pagetable vdst : ℕ) (src : ByteMem) :
    ℕ → List ℕ → MemAllocator → Kernel (ℤ × MemAllocator)
  | _, [], s => return (0, s)
  | i, n :: ns, s => do
    let (r, s) ← s.copyout pagetable (vdst + i) (fun j => src (i + j)) n
    if r < 0 then return (-1, s)
    copyoutParts pagetable vdst src (i + n) ns s

/-- A buffer is read in pieces: `either_copyin` of each piece until one fails. -/
def copyinParts (s : MemAllocator) (pagetable vsrc : ℕ) :
    ℕ → List ℕ → List UInt8 → Kernel (ℤ × List UInt8)
  | _, [], dst => return (0, dst)
  | i, n :: ns, dst => do
    let (r, bytes) ← s.copyin pagetable (vsrc + i) n
    if r < 0 then return (-1, dst ++ bytes)
    copyinParts s pagetable vsrc (i + n) ns (dst ++ bytes)

variable {s s' : MemAllocator} {root va va' vsrc vdst len i n : ℕ} {src : ByteMem}
  {ns : List ℕ} {dst : List UInt8}

def Loaded (s : MemAllocator) (root va n : ℕ) : Prop := ∀ a, va ≤ a → a < va + n → ¬s.Unloaded root a

theorem loaded_add {m : ℕ} :
    s.Loaded root va (n + m) ↔ s.Loaded root va n ∧ s.Loaded root (va + n) m := by
  constructor
  · intro h
    exact ⟨fun a h₁ h₂ => h a h₁ (by omega), fun a h₁ h₂ => h a (by omega) (by omega)⟩
  · rintro ⟨h, h'⟩ a h₁ h₂
    by_cases ha : a < va + n
    · exact h a h₁ ha
    · exact h' a (by omega) (by omega)

theorem loaded_zero : s.Loaded root va 0 := fun a h₁ h₂ => absurd h₂ (by omega)

def userBytes (s : MemAllocator) (root va n : ℕ) : List UInt8 :=
  (List.range n).map fun j => (s.userByte root (va + j)).getD 0

theorem userBytes_add {m : ℕ} :
    s.userBytes root va (n + m) = s.userBytes root va n ++ s.userBytes root (va + n) m := by
  unfold userBytes
  rw [List.range_add, List.map_append, List.map_map]
  congr 1
  apply List.map_congr_left
  intro j _
  rw [Function.comp_apply, Nat.add_assoc]

section Page

variable (h : Space s root) (hw : s.WellFormed)
include h hw

theorem Space.loadedPage (hl : ¬s.Unloaded root (pgRoundDown vsrc))
    (hn : n ≤ pgSize - (vsrc - pgRoundDown vsrc)) :
    ∃ p, p ≠ 0 ∧ s.walkAddr root (pgRoundDown vsrc) = .ok p ∧ vsrc < maxVa ∧ s.Loaded root vsrc n ∧
      (List.range n).map (fun j => s.mem (p + (vsrc - pgRoundDown vsrc) + j)) =
        s.userBytes root vsrc n := by
  have hvals : maxVa = 274877906944 ∧ pgSize = 4096 := by decide
  have hround : pgRoundDown vsrc < maxVa := by
    by_contra hge
    exact hl fun hc => absurd hc hge
  have hvsrc : vsrc < maxVa := by
    unfold pgRoundDown at hround
    omega
  obtain ⟨p, hp⟩ := Option.ne_none_iff_exists'.mp fun hnone => hl fun _ => hnone
  have hwalk : s.walkAddr root (pgRoundDown vsrc) = .ok p := by
    rw [walkAddr_eq h hw hround, hp]
    rfl
  have hsame : ∀ a, vsrc ≤ a → a < vsrc + n → a < maxVa ∧ s.userFrame root a = some p ∧
      a % pgSize = vsrc - pgRoundDown vsrc + (a - vsrc) := by
    intro a h₁ h₂
    rw [hvals.2] at hn
    have ha : a < maxVa ∧ a / pgSize = pgRoundDown vsrc / pgSize ∧
        a % pgSize = vsrc - pgRoundDown vsrc + (a - vsrc) := by
      rw [hvals.2]
      unfold pgRoundDown at *
      omega
    exact ⟨ha.1, (userFrame_page s root hround ha.1 ha.2.1).trans hp, ha.2.2⟩
  refine ⟨p, h.frame_ne_zero hw hround hp, hwalk, hvsrc, fun a h₁ h₂ hun => ?_, ?_⟩
  · obtain ⟨ha, hframe, -⟩ := hsame a h₁ h₂
    rw [hun ha] at hframe
    cases hframe
  · apply List.map_congr_left
    intro j hj
    obtain ⟨ha, hframe, hmod⟩ := hsame (vsrc + j) (Nat.le_add_right _ _)
      (Nat.add_lt_add_left (List.mem_range.mp hj) _)
    unfold userByte
    rw [if_pos ha, hframe, Option.map_some, Option.getD_some, hmod, Nat.add_sub_cancel_left,
      Nat.add_assoc]

theorem Space.copyinFrom {fuel : ℕ} (vsrc len : ℕ) (dst : List UInt8) (hfuel : len < fuel) :
    ∃ r out, s.copyinFrom root fuel vsrc len dst = .ok (r, out) ∧
      ((r = 0 ∧ s.Loaded root vsrc len ∧ out = dst ++ s.userBytes root vsrc len) ∨
        (r = -1 ∧ ¬s.Loaded root vsrc len)) := by
  induction fuel generalizing vsrc len dst with
  | zero => exact absurd hfuel (Nat.not_lt_zero _)
  | succ fuel ih =>
    rw [MemAllocator.copyinFrom]
    by_cases hlen : len = 0
    · subst hlen
      exact ⟨0, dst, rfl, .inl ⟨rfl, loaded_zero, (List.append_nil dst).symm⟩⟩
    rw [if_neg hlen]
    dsimp only
    have hvals : maxVa = 274877906944 ∧ pgSize = 4096 := by decide
    by_cases hu : s.Unloaded root (pgRoundDown vsrc)
    · rw [(walkAddr_eq_zero_iff h hw).mpr hu]
      refine ⟨-1, dst, rfl, .inr ⟨rfl, fun hl => hl vsrc le_rfl (by omega) (hu.page ?_)⟩⟩
      unfold pgRoundDown
      omega
    · generalize hn : min (pgSize - (vsrc - pgRoundDown vsrc)) len = n
      obtain ⟨p, hp, hwalk, hlt, hload, hbytes⟩ := h.loadedPage (n := n) hw hu (by omega)
      rw [hwalk]
      simp only [Kernel.ok_bind, if_neg hp]
      have hpos : 0 < n := by
        unfold pgRoundDown at hn
        omega
      have hwrap : (vsrc + n) % 2 ^ 64 = vsrc + n := Nat.mod_eq_of_lt (by omega)
      have hsplit : len = n + (len - n) := by omega
      rw [hwrap, hbytes]
      obtain ⟨r, out, hrun, hres⟩ := ih (vsrc + n) (len - n) (dst ++ s.userBytes root vsrc n)
        (by omega)
      refine ⟨r, out, hrun, ?_⟩
      rw [hsplit, loaded_add, userBytes_add]
      rcases hres with ⟨rfl, hl, rfl⟩ | ⟨rfl, hl⟩
      · exact .inl ⟨rfl, ⟨hload, hl⟩, List.append_assoc ..⟩
      · exact .inr ⟨rfl, fun hall => hl hall.2⟩

theorem Space.copyin (vsrc len : ℕ) : ∃ r out, s.copyin root vsrc len = .ok (r, out) ∧
    ((r = 0 ∧ s.Loaded root vsrc len ∧ out = s.userBytes root vsrc len) ∨
      (r = -1 ∧ ¬s.Loaded root vsrc len)) :=
  h.copyinFrom hw vsrc len [] (Nat.lt_succ_self len)

/-- A buffer is read as a whole, in pieces of any size, exactly when it is loaded. -/
theorem Space.copyinParts (vsrc i : ℕ) (ns : List ℕ) (dst : List UInt8) :
    ∃ r out, s.copyinParts root vsrc i ns dst = .ok (r, out) ∧
      ((r = 0 ∧ s.Loaded root (vsrc + i) ns.sum ∧
          out = dst ++ s.userBytes root (vsrc + i) ns.sum) ∨
        (r = -1 ∧ ¬s.Loaded root (vsrc + i) ns.sum)) := by
  induction ns generalizing i dst with
  | nil => exact ⟨0, dst, rfl, .inl ⟨rfl, loaded_zero, (List.append_nil dst).symm⟩⟩
  | cons n ns ih =>
    obtain ⟨r, bytes, hrun, hres⟩ := h.copyin hw (vsrc + i) n
    rw [MemAllocator.copyinParts, hrun, Kernel.ok_bind, List.sum_cons, loaded_add, userBytes_add]
    rcases hres with ⟨rfl, hl, rfl⟩ | ⟨rfl, hl⟩
    · obtain ⟨r', out, hrun', hres'⟩ := ih (i + n) (dst ++ s.userBytes root (vsrc + i) n)
      refine ⟨r', out, hrun', ?_⟩
      rw [← Nat.add_assoc] at hres'
      rcases hres' with ⟨rfl, hl', rfl⟩ | ⟨rfl, hl'⟩
      · exact .inl ⟨rfl, ⟨hl, hl'⟩, List.append_assoc ..⟩
      · exact .inr ⟨rfl, fun hall => hl' hall.2⟩
    · exact ⟨-1, dst ++ bytes, rfl, .inr ⟨rfl, fun hall => hl hall.1⟩⟩

/-- A buffer is written as a whole, in pieces of any size, exactly when it is loaded. -/
theorem Space.copyoutParts (vdst i : ℕ) (src : ByteMem) (ns : List ℕ) :
    ∃ r s', s.copyoutParts root vdst src i ns = .ok (r, s') ∧
      ((r = 0 ∧ s.Loaded root (vdst + i) ns.sum) ∨ (r = -1 ∧ ¬s.Loaded root (vdst + i) ns.sum)) := by
  induction ns generalizing s i with
  | nil => exact ⟨0, s, rfl, .inl ⟨rfl, loaded_zero⟩⟩
  | cons n ns ih =>
    obtain ⟨r, s₁, hrun, hwr, hres⟩ := h.copyout (fun j => src (i + j)) (vdst + i) n hw
    rw [MemAllocator.copyoutParts, hrun, Kernel.ok_bind, List.sum_cons, loaded_add]
    rcases hres with ⟨rfl, hl, -⟩ | ⟨rfl, va, h₁, h₂, hun⟩
    · obtain ⟨r', s₂, hrun', hres'⟩ := ih hwr.acts.space hwr.acts.moves.wf (i + n)
      refine ⟨r', s₂, hrun', ?_⟩
      have hkept : ∀ a m, s₁.Loaded root a m ↔ s.Loaded root a m := fun a m =>
        forall₃_congr fun _ _ _ => not_congr hwr.unloaded
      rw [← Nat.add_assoc, hkept] at hres'
      rcases hres' with ⟨rfl, hl'⟩ | ⟨rfl, hl'⟩
      · exact .inl ⟨rfl, hl, hl'⟩
      · exact .inr ⟨rfl, fun hall => hl' hall.2⟩
    · exact ⟨-1, s₁, rfl, .inr ⟨rfl, fun hall => hall.1 va h₁ h₂ hun⟩⟩

end Page

end MemAllocator

open MemAllocator

variable {s : MemAllocator} {t : Task} {contents : ℕ → List UInt8} {vmaTable : ℕ → Vma}
  {uaddr va : ℕ}

/-- A process in its memory: the table is well formed, and the mappings start at pages, lie below
the pages of the kernel and give some access. -/
structure Task.Ready (t : Task) (vmaTable : ℕ → Vma) (s : MemAllocator) : Prop where
  space : Space s t.pagetable
  wellFormed : s.WellFormed
  top : Top s t.pagetable
  aligned : t.Aligned vmaTable
  below : ∀ i p, t.vma i = some p → (vmaTable p).stop ≤ userTop
  prot : ∀ i p, t.vma i = some p → (vmaTable p).prot &&& 7 ≠ 0
  sz_nonneg : 0 ≤ t.sz
  sz_lt : t.sz < 2 ^ 31

namespace Task.Ready

variable (h : t.Ready vmaTable s)
include h

theorem faultPage_some {perm : ℕ} {byte : ℕ → UInt8}
    (hf : t.faultPage contents vmaTable va = some (perm, byte)) :
    UserPerm perm ∧ va < userTop := by
  have hvals : userTop = 274877898752 ∧ pgSize = 4096 := by decide
  unfold faultPage at hf
  cases hl : t.loaderIn vmaTable va (List.range nommapfile) with
  | some v =>
    rw [hl] at hf
    cases hf
    obtain ⟨i, -, p, hi, rfl, hc⟩ := loaderIn_some hl
    refine ⟨userPerm_prot (h.prot i p hi), ?_⟩
    have hstop := h.below i p hi
    have hva := hc.2
    unfold pgRoundUp at hva
    omega
  | none =>
    rw [hl] at hf
    dsimp only at hf
    split at hf
    · rename_i hsz
      cases hf
      have h₁ := h.sz_nonneg
      have h₂ := h.sz_lt
      unfold toU64 at hsz
      exact ⟨⟨by decide, by decide, by decide⟩, by omega⟩
    · cases hf

/-- With three frames `argaddr` returns, the page of the argument is loaded if there is one, and
the other pages are as before. -/
theorem argaddr_loads (contents : ℕ → List UInt8) (hframes : 3 ≤ s.freeList.length) (va : ℕ) :
    ∃ b s₁, t.loadIfValid contents vmaTable va s = .ok (b, s₁) ∧ Space s₁ t.pagetable ∧
      s₁.WellFormed ∧
      (t.faultPage contents vmaTable va ≠ none → ¬s₁.Unloaded t.pagetable va) ∧
      ∀ a, (s₁.Unloaded t.pagetable a → s.Unloaded t.pagetable a) ∧
        (pgRoundDown a ≠ pgRoundDown va → s.Unloaded t.pagetable a → s₁.Unloaded t.pagetable a) := by
  rcases loadIfValid_spec h.space h.wellFormed h.top h.aligned
      (fun perm b hf => (h.faultPage_some hf).1) with
    ⟨hnone, he⟩ | ⟨hu, perm, byte, hf, ⟨e, he, hwhy⟩ | ⟨hva, s₁, he, p, hload⟩⟩
  · exact ⟨false, s, he, h.space, h.wellFormed, fun hf hu => hf (hnone hu), fun a => ⟨id, fun _ => id⟩⟩
  · rcases hwhy with hnil | hge
    · rw [hnil] at hframes
      exact absurd hframes (by decide)
    · exact absurd (h.faultPage_some hf).2 (by omega)
  · obtain ⟨hperm, -⟩ := h.faultPage_some hf
    rcases hload with ⟨hmap, -⟩ | ⟨hfew, -⟩
    · have hvals : userTop = 274877898752 ∧ maxVa = 274877906944 ∧ pgSize = 4096 := by decide
      refine ⟨true, s₁, he, hmap.acts.space, hmap.acts.moves.wf, fun _ hun => ?_, fun a => ?_⟩
      · have hleaf := hmap.leaf va (by omega)
        rw [if_pos (by rw [hvals.2.2, pgRoundDown]; omega)] at hleaf
        have hframe := userFrame_of_leaf hperm (h.wellFormed.isPage p hmap.fresh) hleaf
        rw [hun (by omega)] at hframe
        cases hframe
      · have hpage : a / pgSize = pgRoundDown va / pgSize ↔ pgRoundDown a = pgRoundDown va := by
          rw [hvals.2.2]
          unfold pgRoundDown
          omega
        by_cases ha : pgRoundDown a = pgRoundDown va
        · exact ⟨fun _ => hu.page ha, fun hne => absurd ha hne⟩
        · have hsame : ∀ hlt : a < maxVa, s₁.userFrame t.pagetable a = s.userFrame t.pagetable a :=
            fun hlt => userFrame_congr ((hmap.leaf a hlt).trans (if_neg (mt hpage.mp ha)))
          exact ⟨fun hun hlt => (hsame hlt).symm.trans (hun hlt),
            fun _ hun hlt => (hsame hlt).trans (hun hlt)⟩
    · have := missing_le s t.pagetable (pgRoundDown va)
      omega

end Task.Ready

namespace Task

def ValidBuffer (t : Task) (contents : ℕ → List UInt8) (vmaTable : ℕ → Vma) (s : MemAllocator)
    (uaddr n : ℕ) : Prop :=
  ∀ a, uaddr ≤ a → a < uaddr + n →
    ¬s.Unloaded t.pagetable a ∨ t.faultPage contents vmaTable a ≠ none

def LaterLoaded (t : Task) (s : MemAllocator) (uaddr n : ℕ) : Prop :=
  ∀ a, uaddr ≤ a → a < uaddr + n → pgRoundDown a ≠ pgRoundDown uaddr → ¬s.Unloaded t.pagetable a

/-- After `argaddr` has loaded the page of a valid buffer, a transfer of the buffer in either
direction succeeds exactly when its later pages were loaded before. -/
theorem argaddr_transfer_iff (h : t.Ready vmaTable s) (hframes : 3 ≤ s.freeList.length)
    (ns : List ℕ) (src : ByteMem) (hvalid : t.ValidBuffer contents vmaTable s uaddr ns.sum) :
    ∃ b s₁ r s₂ r' out, t.loadIfValid contents vmaTable uaddr s = .ok (b, s₁) ∧
      s₁.copyoutParts t.pagetable uaddr src 0 ns = .ok (r, s₂) ∧
      s₁.copyinParts t.pagetable uaddr 0 ns [] = .ok (r', out) ∧
      (r = 0 ↔ t.LaterLoaded s uaddr ns.sum) ∧ (r' = 0 ↔ t.LaterLoaded s uaddr ns.sum) := by
  obtain ⟨b, s₁, hload, hspace, hw, hfirst, hother⟩ := h.argaddr_loads contents hframes uaddr
  have hiff : s₁.Loaded t.pagetable uaddr ns.sum ↔ t.LaterLoaded s uaddr ns.sum := by
    constructor
    · exact fun hall a h₁ h₂ hpage hun => hall a h₁ h₂ ((hother a).2 hpage hun)
    · intro hlater a h₁ h₂ hun
      by_cases hpage : pgRoundDown a = pgRoundDown uaddr
      · have hun' : s₁.Unloaded t.pagetable uaddr := hun.page hpage.symm
        rcases hvalid uaddr le_rfl (by omega) with hl | hf
        · exact hl ((hother uaddr).1 hun')
        · exact hfirst hf hun'
      · exact hlater a h₁ h₂ hpage ((hother a).1 hun)
  obtain ⟨r, s₂, hout, hres⟩ := hspace.copyoutParts hw uaddr 0 src ns
  obtain ⟨r', out, hin, hres'⟩ := hspace.copyinParts hw uaddr 0 ns []
  refine ⟨b, s₁, r, s₂, r', out, hload, hout, hin, ?_, ?_⟩
  · rw [← hiff]
    rcases hres with ⟨rfl, hl⟩ | ⟨rfl, hl⟩
    · exact iff_of_true rfl hl
    · exact iff_of_false (by decide) hl
  · rw [← hiff]
    rcases hres' with ⟨rfl, hl, -⟩ | ⟨rfl, hl⟩
    · exact iff_of_true rfl hl
    · exact iff_of_false (by decide) hl

def twoPages : Task := { (oneProcess []).myTask.task with sz := 8192 }

theorem twoPages_ready : twoPages.Ready (fun _ => .zero) (oneProcess []).ram ∧
    3 ≤ (oneProcess []).ram.freeList.length := by
  unfold twoPages
  obtain ⟨root, ram, hnew, -, heq⟩ := oneProcess_eq []
  rw [heq]
  have hcost := hnew.cost
  have hlen : (bootSystem ((List.range 9).map fun i => 0x80300000 + 4096 * i)).ram.freeList.length =
    9 := by decide
  refine ⟨⟨hnew.space, hnew.moves.wf, hnew.top, fun i p hp => ?_, fun i p hp => ?_,
    fun i p hp => ?_, (by decide : (0 : ℤ) ≤ 8192), (by decide : (8192 : ℤ) < 2 ^ 31)⟩, by change 3 ≤ ram.freeList.length; omega⟩
  · cases hp
  · cases hp
  · cases hp

theorem twoPages_faultPage (hva : va < 8192) :
    twoPages.faultPage (fun _ => []) (fun _ => .zero) va ≠ none := by
  have hnone : twoPages.loaderIn (fun _ => .zero) va (List.range nommapfile) = none := by rfl
  have hsz : va < toU64 8192 := by
    unfold toU64
    omega
  unfold faultPage
  rw [hnone]
  exact (if_pos hsz).trans_ne (Option.some_ne_none _)

theorem twoPages_valid {n : ℕ} (hn : uaddr + n ≤ 8192) :
    twoPages.ValidBuffer (fun _ => []) (fun _ => .zero) (oneProcess []).ram uaddr n :=
  fun _ _ h₂ => .inr (twoPages_faultPage (by omega))

theorem argaddr_transfer_onePage : ∃ b s₁ r s₂,
    twoPages.loadIfValid (fun _ => []) (fun _ => .zero) 16 (oneProcess []).ram = .ok (b, s₁) ∧
      s₁.copyoutParts twoPages.pagetable 16 (fun _ => 7) 0 [100, 200] = .ok (r, s₂) ∧ r = 0 := by
  obtain ⟨b, s₁, r, s₂, -, -, hload, hout, -, hr, -⟩ :=
    argaddr_transfer_iff twoPages_ready.1 twoPages_ready.2 [100, 200] (fun _ => 7)
      (twoPages_valid (show 16 + [100, 200].sum ≤ 8192 by decide))
  refine ⟨b, s₁, r, s₂, hload, hout, hr.mpr fun a h₁ h₂ hpage => absurd ?_ hpage⟩
  unfold pgRoundDown
  simp only [List.sum_cons, List.sum_nil] at h₂
  omega

/-- Two bytes across the end of the first page are not copied, in either direction. -/
theorem argaddr_transfer_short :
    twoPages.ValidBuffer (fun _ => []) (fun _ => .zero) (oneProcess []).ram 4095 2 ∧
      ∃ b s₁ s₂ out,
        twoPages.loadIfValid (fun _ => []) (fun _ => .zero) 4095 (oneProcess []).ram = .ok (b, s₁) ∧
        s₁.copyout twoPages.pagetable 4095 (fun _ => 7) 2 = .ok (-1, s₂) ∧
        s₁.copyin twoPages.pagetable 4095 2 = .ok (-1, out) := by
  constructor
  · exact twoPages_valid (by decide)
  · have hrun : (match twoPages.loadIfValid (fun _ => []) (fun _ => .zero) 4095 (oneProcess []).ram with
        | .ok (_, s₁) =>
          match s₁.copyout twoPages.pagetable 4095 (fun _ => 7) 2,
            s₁.copyin twoPages.pagetable 4095 2 with
          | .ok (r, _), .ok (r', _) => decide (r = -1 ∧ r' = -1)
          | _, _ => false
        | .error _ => false) = true := by decide +kernel
    split at hrun
    · rename_i b s₁ hload
      split at hrun
      · rename_i r s₂ r' out hout hin
        obtain ⟨rfl, rfl⟩ := of_decide_eq_true hrun
        exact ⟨b, s₁, s₂, out, hload, hout, hin⟩
      · cases hrun
    · cases hrun

end Task

namespace System

variable {s s' : System} {va : ℕ} {b : Bool}

/-- The running process has a well-formed table, and its mappings start at pages and give some
access. -/
structure Faultable (s : System) : Prop where
  space : Space s.ram s.myTask.task.pagetable
  wellFormed : s.ram.WellFormed
  top : Top s.ram s.myTask.task.pagetable
  aligned : s.myTask.task.Aligned s.vmaTable
  prot : ∀ i p, s.myTask.task.vma i = some p → (s.vmaTable p).prot &&& 7 ≠ 0

namespace Faultable

variable (h : s.Faultable)
include h

theorem userPerm {perm : ℕ} {byte : ℕ → UInt8}
    (hf : s.myTask.task.faultPage s.contents s.vmaTable va = some (perm, byte)) : UserPerm perm := by
  unfold Task.faultPage at hf
  split at hf
  · rename_i v hv
    obtain ⟨i, -, p, hi, rfl, -⟩ := Task.loaderIn_some hv
    cases hf
    exact userPerm_prot (h.prot i p hi)
  · split at hf
    · cases hf
      exact ⟨by decide, by decide, by decide⟩
    · cases hf

theorem of_acts {ram : MemAllocator} (hacts : Acts s.ram ram s.myTask.task.pagetable)
    (htop : Top ram s.myTask.task.pagetable) : ({ s with ram := ram } : System).Faultable :=
  ⟨hacts.space, hacts.moves.wf, htop, h.aligned, h.prot⟩

theorem load (hok : loadIfValid va s = .ok (b, s')) : s' = { s with ram := s'.ram } ∧
    s'.Faultable ∧ (s'.ram = s.ram ∧ (s.ram.Unloaded s.myTask.task.pagetable va →
        s.myTask.task.faultPage s.contents s.vmaTable va = none) ∨
      va < userTop ∧ s.ram.Unloaded s.myTask.task.pagetable va ∧ ∃ perm byte, UserPerm perm ∧
        Loads s.ram s'.ram s.myTask.task.pagetable va perm byte) := by
  unfold loadIfValid at hok
  rw [Hoare.get_bind] at hok
  obtain ⟨-, hcall⟩ := onRam_sameTables hok
  rw [onRam_of_ok hcall] at hok
  have heq : s' = { s with ram := s'.ram } := (congrArg Prod.snd (Except.ok.inj hok)).symm
  rcases Task.loadIfValid_spec h.space h.wellFormed h.top h.aligned fun _ _ => h.userPerm with
    ⟨hnone, he⟩ | ⟨hu, perm, byte, hf, ⟨e, he, -⟩ | ⟨hva, m, he, hl⟩⟩
  · have hram : s'.ram = s.ram := congrArg Prod.snd (Except.ok.inj (hcall.symm.trans he))
    have hs : s' = s := by rw [heq, hram]
    exact ⟨heq, hs ▸ h, .inl ⟨hram, hnone⟩⟩
  · cases hcall.symm.trans he
  · have hram : m = s'.ram := (congrArg Prod.snd (Except.ok.inj (hcall.symm.trans he))).symm
    subst hram
    refine ⟨heq, ?_, .inr ⟨hva, hu, perm, byte, h.userPerm hf, hl⟩⟩
    rw [heq]
    exact h.of_acts hl.acts (hl.top hva h.top)

theorem load_of_loaded (hl : ¬s.ram.Unloaded s.myTask.task.pagetable va) :
    loadIfValid va s = .ok (false, s) := by
  obtain ⟨p, hp, he⟩ := walkAddr_of_loaded h.space h.wellFormed hl
  have hcall : s.myTask.task.loadIfValid s.contents s.vmaTable va s.ram = .ok (false, s.ram) := by
    unfold Task.loadIfValid
    rw [he, Kernel.ok_bind, if_pos hp]
    rfl
  unfold loadIfValid
  rw [Hoare.get_bind, onRam_of_ok hcall]

theorem load_of_none (hf : s.myTask.task.faultPage s.contents s.vmaTable va = none) :
    loadIfValid va s = .ok (false, s) := by
  rcases Task.loadIfValid_spec h.space h.wellFormed h.top h.aligned fun _ _ => h.userPerm with
    ⟨-, he⟩ | ⟨-, perm, byte, hsome, -⟩
  · unfold loadIfValid
    rw [Hoare.get_bind, onRam_of_ok he]
  · rw [hf] at hsome
    cases hsome

/-- A page that is known and not loaded is loaded when there are frames for it and its nodes. -/
theorem load_of_room (hu : s.ram.Unloaded s.myTask.task.pagetable va) (hva : va < userTop)
    (hf : s.myTask.task.faultPage s.contents s.vmaTable va ≠ none)
    (hroom : s.ram.missing (pgRoundDown va) 2 s.myTask.task.pagetable + 1 ≤ s.ram.freeList.length) :
    ∃ ram p perm, loadIfValid va s = .ok (true, { s with ram := ram }) ∧
      ram.freeList <:+ s.ram.freeList ∧ UserPerm perm ∧
      MapsPage s.ram ram s.myTask.task.pagetable (pgRoundDown va) p perm := by
  rcases Task.loadIfValid_spec h.space h.wellFormed h.top h.aligned fun _ _ => h.userPerm with
    ⟨hnone, -⟩ | ⟨-, perm, byte, hsome, ⟨e, -, hwhy⟩ | ⟨-, ram, he, p, hl⟩⟩
  · exact absurd (hnone hu) hf
  · rcases hwhy with hnil | hge
    · rw [hnil] at hroom
      exact absurd hroom (Nat.not_succ_le_zero _)
    · exact absurd hva (not_lt.mpr hge)
  · rcases hl with ⟨hmap, -⟩ | ⟨hfew, -⟩
    · refine ⟨ram, p, perm, ?_, Task.loadIfValid_freeList he, h.userPerm hsome, hmap⟩
      unfold loadIfValid
      rw [Hoare.get_bind, onRam_of_ok he]
    · exact absurd hroom (not_le.mpr hfew)

end Faultable

end System

end StartOS
