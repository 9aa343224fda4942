import StartOS.Os.UserTransfer

/-! # Strings of a program

`copyinstr` copies a string page by page up to its NUL. It stops without success
at the limit of the buffer and at the first page that the program cannot reach.
-/

namespace StartOS

namespace MemAllocator

/-- The inner loop of `copyinstr` over `n` bytes of a page from `p` on: whether the NUL was met,
what is left of `maxsz`, the place in the buffer, and the buffer. -/
def copyinstrPage (s : MemAllocator) : ℕ → ℕ → ℕ → ℕ → ByteMem → Bool × ℕ × ℕ × ByteMem
  | 0, _, maxsz, i, dst => (false, maxsz, i, dst)
  | n + 1, p, maxsz, i, dst =>
    if s.mem p = 0 then (true, maxsz, i, dst.blit i 1 fun _ => 0)
    else copyinstrPage s n (p + 1) (maxsz - 1) (i + 1) (dst.blit i 1 fun _ => s.mem p)

/-- The outer loop of `copyinstr`. -/
def copyinstrFrom (s : MemAllocator) (pagetable : ℕ) :
    ℕ → ℕ → ℕ → ℕ → ByteMem → Kernel (ℤ × ByteMem)
  | 0, _, _, _, _ => .error .hang
  | fuel + 1, vsrc, maxsz, i, dst =>
    if maxsz = 0 then return (-1, dst)
    else do
      let va0 := pgRoundDown vsrc
      let pa0 ← s.walkAddr pagetable va0
      if pa0 = 0 then return (-1, dst)
      let n := min (pgSize - (vsrc - va0)) maxsz
      match s.copyinstrPage n (pa0 + (vsrc - va0)) maxsz i dst with
      | (true, _, _, dst) => return (0, dst)
      | (false, maxsz, i, dst) =>
        copyinstrFrom s pagetable fuel ((va0 + pgSize) % 2 ^ 64) maxsz i dst

/-- `copyinstr` into the buffer `dst`. A limit that is not positive leaves no turn. -/
def copyinstr (s : MemAllocator) (pagetable : ℕ) (dst : ByteMem) (vsrc : ℕ) (maxsz : ℤ) :
    Kernel (ℤ × ByteMem) :=
  s.copyinstrFrom pagetable (maxsz.toNat + 1) vsrc maxsz.toNat 0 dst

end MemAllocator

/-- The loop of `strlen`. -/
def strlenFrom (s : ByteMem) : ℕ → ℕ → Kernel ℕ
  | 0, _ => .error .hang
  | fuel + 1, n => if s n = 0 then return n else strlenFrom s fuel (n + 1)

/-- `fetchstr`. After a copy without error the NUL is in the buffer. -/
def Task.fetchstr (t : Task) (s : MemAllocator) (addr : ℕ) (buf : ByteMem) (max : ℤ) :
    Kernel (ℤ × ByteMem) := do
  let (err, buf) ← s.copyinstr t.pagetable buf addr max
  if err < 0 then return (err, buf)
  let n ← strlenFrom buf max.toNat 0
  return (n, buf)

namespace MemAllocator

variable {s : MemAllocator} {root va vsrc k m n p i j maxsz fuel : ℕ} {dst dst' : ByteMem}

def userChar (s : MemAllocator) (root va : ℕ) : Option UInt8 := (s.image root va).map s.mem

/-- The program has `k` characters and a NUL at `vsrc`. -/
def NulAt (s : MemAllocator) (root vsrc k : ℕ) : Prop :=
  (∀ j < k, ∃ c, s.userChar root (vsrc + j) = some c ∧ c ≠ 0) ∧ s.userChar root (vsrc + k) = some 0

section Text

theorem userChar_of_userPage (hp : s.userPage root va = some p) (hj : va % pgSize + j < pgSize) :
    s.userChar root (va + j) = some (s.mem (p + va % pgSize + j)) := by
  unfold userChar
  rw [image_of_userPage hp hj, Option.map_some]

theorem userChar_none (hp : s.userPage root va = none) : s.userChar root va = none := by
  unfold userChar image
  rw [hp]
  rfl

theorem NulAt.unique (h : s.NulAt root vsrc k) (h' : s.NulAt root vsrc m) : k = m := by
  have hle : ∀ {k m}, s.NulAt root vsrc k → s.NulAt root vsrc m → m ≤ k := by
    intro k m h h'
    by_contra hlt
    obtain ⟨c, hc, hne⟩ := h'.1 k (by omega)
    rw [h.2] at hc
    exact hne (Option.some.inj hc).symm
  exact Nat.le_antisymm (hle h' h) (hle h h')

theorem nulAt_add (hne : ∀ j < n, ∃ c, s.userChar root (vsrc + j) = some c ∧ c ≠ 0) :
    s.NulAt root vsrc (n + k) ↔ s.NulAt root (vsrc + n) k := by
  unfold NulAt
  constructor
  · rintro ⟨hc, hz⟩
    refine ⟨fun j hj => ?_, by rwa [Nat.add_assoc]⟩
    rw [Nat.add_assoc]
    exact hc (n + j) (by omega)
  · rintro ⟨hc, hz⟩
    refine ⟨fun j hj => ?_, by rwa [← Nat.add_assoc]⟩
    by_cases hjn : j < n
    · exact hne j hjn
    · have := hc (j - n) (by omega)
      rwa [show vsrc + n + (j - n) = vsrc + j by omega] at this

theorem NulAt.not_of_char (hne : ∀ j < n, ∃ c, s.userChar root (vsrc + j) = some c ∧ c ≠ 0)
    (h : s.NulAt root vsrc k) : n ≤ k := by
  by_contra hlt
  obtain ⟨c, hc, hnz⟩ := hne k (by omega)
  rw [h.2] at hc
  exact hnz (Option.some.inj hc).symm

theorem NulAt.ne_none (h : s.NulAt root vsrc k) : s.userChar root vsrc ≠ none := by
  intro hnone
  cases k with
  | zero =>
    have hz := h.2
    rw [Nat.add_zero, hnone] at hz
    cases hz
  | succ k =>
    obtain ⟨c, hc, -⟩ := h.1 0 (Nat.succ_pos k)
    rw [Nat.add_zero, hnone] at hc
    cases hc

end Text

theorem pgRoundDown_add_pgSize (va : ℕ) :
    pgRoundDown va + pgSize = va + (pgSize - va % pgSize) := by
  unfold pgRoundDown
  rw [show pgSize = 4096 from rfl]
  omega

/-- The inner loop copies the bytes of the page up to its first NUL. -/
theorem copyinstrPage_spec (s : MemAllocator) (n p maxsz i : ℕ) (dst : ByteMem) :
    (∃ k left place, k < n ∧ (∀ j < k, s.mem (p + j) ≠ 0) ∧ s.mem (p + k) = 0 ∧
      s.copyinstrPage n p maxsz i dst =
        (true, left, place, dst.blit i (k + 1) fun j => s.mem (p + j))) ∨
    ((∀ j < n, s.mem (p + j) ≠ 0) ∧
      s.copyinstrPage n p maxsz i dst =
        (false, maxsz - n, i + n, dst.blit i n fun j => s.mem (p + j))) := by
  induction n generalizing p maxsz i dst with
  | zero => exact .inr ⟨fun j hj => absurd hj (Nat.not_lt_zero j), by rw [ByteMem.blit_zero]; rfl⟩
  | succ n ih =>
    rw [copyinstrPage]
    by_cases hz : s.mem p = 0
    · refine .inl ⟨0, maxsz, i, Nat.succ_pos n, fun j hj => absurd hj (Nat.not_lt_zero j), hz, ?_⟩
      rw [if_pos hz, ByteMem.blit_congr fun j hj => ?_]
      rw [Nat.lt_one_iff.mp hj]
      exact hz.symm
    · have hjoin : ∀ k, ((dst.blit i 1 fun _ => s.mem p).blit (i + 1) k fun j =>
          s.mem (p + 1 + j)) = dst.blit i (1 + k) fun j => s.mem (p + j) := by
        intro k
        have hhead : (dst.blit i 1 fun _ => s.mem p) = dst.blit i 1 fun j => s.mem (p + j) := by
          apply ByteMem.blit_congr
          intro j hj
          rw [Nat.lt_one_iff.mp hj]
          rfl
        rw [hhead]
        exact ByteMem.blit_append fun j _ => congrArg s.mem (Nat.add_assoc p 1 j)
      have hfirst : ∀ k, (∀ j < k, s.mem (p + 1 + j) ≠ 0) → ∀ j < k + 1, s.mem (p + j) ≠ 0 := by
        intro k hk j hj
        cases j with
        | zero => exact hz
        | succ j =>
          have := hk j (by omega)
          rwa [show p + 1 + j = p + (j + 1) by omega] at this
      rw [if_neg hz]
      rcases ih (p + 1) (maxsz - 1) (i + 1) (dst.blit i 1 fun _ => s.mem p) with
        ⟨k, left, place, hk, hne, hnul, he⟩ | ⟨hne, he⟩
      · refine .inl ⟨k + 1, left, place, by omega, hfirst k hne, ?_, ?_⟩
        · rwa [show p + (k + 1) = p + 1 + k by omega]
        · rw [he, hjoin, Nat.add_comm 1 (k + 1)]
      · refine .inr ⟨hfirst n hne, ?_⟩
        rw [he, hjoin, Nat.sub_sub, Nat.add_comm 1 n, Nat.add_assoc i, Nat.add_comm 1 n]

/-- The outer loop: the string is copied with its NUL, or there is none before the limit that the
program can reach, and a run of bytes has been written. -/
theorem copyinstrFrom_spec (s : MemAllocator) (root vsrc maxsz i : ℕ) (dst : ByteMem)
    (hfuel : maxsz < fuel) :
    ∃ r dst', s.copyinstrFrom root fuel vsrc maxsz i dst = .ok (r, dst') ∧
      ((r = 0 ∧ ∃ k < maxsz, s.NulAt root vsrc k ∧ ∃ f, dst' = dst.blit i (k + 1) f ∧
          ∀ j ≤ k, s.userChar root (vsrc + j) = some (f j)) ∨
        (r = -1 ∧ (∀ k < maxsz, ¬s.NulAt root vsrc k) ∧
          ∃ m ≤ maxsz, ∃ f, dst' = dst.blit i m f)) := by
  induction fuel generalizing vsrc maxsz i dst with
  | zero => exact absurd hfuel (Nat.not_lt_zero _)
  | succ fuel ih =>
    rw [copyinstrFrom]
    by_cases hmax : maxsz = 0
    · subst hmax
      refine ⟨-1, dst, rfl, .inr ⟨rfl, fun k hk => absurd hk (Nat.not_lt_zero k), 0, le_rfl, dst, ?_⟩⟩
      exact (ByteMem.blit_zero dst i dst).symm
    rw [if_neg hmax]
    dsimp only
    rw [walkAddr_eq_userPage, userPage_page s root (pgRoundDown_div vsrc), Kernel.ok_bind,
      sub_pgRoundDown]
    cases hp : s.userPage root vsrc with
    | none =>
      refine ⟨-1, dst, rfl, .inr ⟨rfl, fun k _ hk => ?_, 0, Nat.zero_le _, dst,
        (ByteMem.blit_zero dst i dst).symm⟩⟩
      exact hk.ne_none (userChar_none hp)
    | some p =>
      have hlt := lt_maxVa_of_userPage hp
      have hmod : vsrc % pgSize < pgSize := Nat.mod_lt _ (by decide)
      have hvals : maxVa = 274877906944 ∧ pgSize = 4096 := by decide
      rw [Option.getD_some, if_neg (userPage_some.mp hp).2.2]
      obtain ⟨n, hn⟩ : ∃ n, n = min (pgSize - vsrc % pgSize) maxsz := ⟨_, rfl⟩
      rw [← hn]
      have hnext : ¬maxsz ≤ pgSize - vsrc % pgSize →
          (pgRoundDown vsrc + pgSize) % 2 ^ 64 = vsrc + n := by
        intro hend
        rw [pgRoundDown_add_pgSize, Nat.mod_eq_of_lt (by omega)]
        omega
      have hchar : ∀ j < n, s.userChar root (vsrc + j) = some (s.mem (p + vsrc % pgSize + j)) :=
        fun j hj => userChar_of_userPage hp (by omega)
      rcases s.copyinstrPage_spec n (p + vsrc % pgSize) maxsz i dst with
        ⟨k, left, place, hk, hne, hnul, he⟩ | ⟨hne, he⟩
      · rw [he]
        refine ⟨0, _, rfl, .inl ⟨rfl, k, by omega, ⟨fun j hj => ⟨_, hchar j (by omega), hne j hj⟩, ?_⟩,
          _, rfl, fun j hj => hchar j (by omega)⟩⟩
        rw [hchar k hk, hnul]
      · rw [he]
        dsimp only
        have hchars : ∀ j < n, ∃ c, s.userChar root (vsrc + j) = some c ∧ c ≠ 0 := fun j hj =>
          ⟨_, hchar j hj, hne j hj⟩
        obtain ⟨r, dst', hrun, hres⟩ := ih ((pgRoundDown vsrc + pgSize) % 2 ^ 64) (maxsz - n) (i + n)
          (dst.blit i n fun j => s.mem (p + vsrc % pgSize + j)) (by omega)
        refine ⟨r, dst', hrun, ?_⟩
        by_cases hend : maxsz ≤ pgSize - vsrc % pgSize
        · -- the limit falls into the page, so this was the last turn
          rcases hres with ⟨-, k, hk, -⟩ | ⟨rfl, -, m, hm, f, rfl⟩
          · omega
          · obtain rfl : m = 0 := by omega
            refine .inr ⟨rfl, fun k hk hs => ?_, n, by omega, _, ByteMem.blit_zero ..⟩
            have := hs.not_of_char hchars
            omega
        · rw [hnext hend] at hres
          rcases hres with ⟨rfl, k, hk, hs, f, rfl, hf⟩ | ⟨rfl, hnone, m, hm, f, rfl⟩
          · refine .inl ⟨rfl, n + k, by omega, (nulAt_add hchars).mpr hs, _,
              ByteMem.blit_blit dst i n (k + 1) _ f, fun j hj => ?_⟩
            split
            · rename_i hjn
              exact hchar j hjn
            · have := hf (j - n) (by omega)
              rwa [show vsrc + n + (j - n) = vsrc + j by omega] at this
          · refine .inr ⟨rfl, fun k hk hs => ?_, n + m, by omega, _,
              ByteMem.blit_blit dst i n m _ f⟩
            have hge := hs.not_of_char hchars
            obtain ⟨k', rfl⟩ : ∃ k', k = n + k' := ⟨k - n, by omega⟩
            exact hnone k' (by omega) ((nulAt_add hchars).mp hs)

end MemAllocator

open MemAllocator

variable {s : MemAllocator} {buf : ByteMem} {k n fuel : ℕ}

theorem strlenFrom_eq (hne : ∀ j < k, buf (n + j) ≠ 0) (hz : buf (n + k) = 0) (hfuel : k < fuel) :
    strlenFrom buf fuel n = .ok (n + k) := by
  induction k generalizing n fuel with
  | zero =>
    obtain ⟨fuel, rfl⟩ := Nat.exists_eq_succ_of_ne_zero (Nat.pos_iff_ne_zero.mp hfuel)
    rw [strlenFrom]
    exact if_pos hz
  | succ k ih =>
    obtain ⟨fuel, rfl⟩ := Nat.exists_eq_succ_of_ne_zero (show fuel ≠ 0 by omega)
    have hfirst : buf n ≠ 0 := hne 0 (Nat.succ_pos k)
    have hrest : ∀ j < k, buf (n + 1 + j) ≠ 0 := by
      intro j hj
      rw [Nat.add_assoc, Nat.add_comm 1 j]
      exact hne (j + 1) (by omega)
    have hlast : buf (n + 1 + k) = 0 := by
      rw [Nat.add_assoc, Nat.add_comm 1 k]
      exact hz
    rw [strlenFrom, if_neg hfirst, ih hrest hlast (by omega), Nat.add_assoc, Nat.add_comm 1 k]

/-- A string with its NUL in front of the limit is copied with the NUL, and `fetchstr` returns its
length. -/
theorem Task.fetchstr_found (t : Task) {s : MemAllocator} {vsrc k : ℕ} (buf : ByteMem) {maxsz : ℤ}
    (hk : (k : ℤ) < maxsz) (hs : s.NulAt t.pagetable vsrc k) :
    ∃ buf', s.copyinstr t.pagetable buf vsrc maxsz = .ok (0, buf') ∧
      (∀ j ≤ k, s.userChar t.pagetable (vsrc + j) = some (buf' j)) ∧
      (∀ j > k, buf' j = buf j) ∧ t.fetchstr s vsrc buf maxsz = .ok (k, buf') := by
  obtain ⟨r, buf', hrun, hres⟩ := s.copyinstrFrom_spec t.pagetable vsrc maxsz.toNat 0 buf
    (Nat.lt_succ_self maxsz.toNat)
  rcases hres with ⟨rfl, k', hk', hs', f, rfl, hf⟩ | ⟨rfl, hnone, m, hm, f, rfl⟩
  · obtain rfl := hs.unique hs'
    have hin : ∀ j ≤ k, buf.blit 0 (k + 1) f j = f j := fun j hj =>
      ByteMem.blit_of_mem (Nat.zero_le j) (by omega)
    refine ⟨_, hrun, fun j hj => ?_, fun j hj => ByteMem.blit_of_not_mem (by omega), ?_⟩
    · rw [hin j hj]
      exact hf j hj
    · have hlen : strlenFrom (buf.blit 0 (k + 1) f) maxsz.toNat 0 = .ok (0 + k) := by
        refine strlenFrom_eq (fun j hj => ?_) ?_ hk'
        · obtain ⟨c, hc, hne⟩ := hs.1 j hj
          rw [hf j hj.le] at hc
          rw [Nat.zero_add, hin j hj.le, Option.some.inj hc]
          exact hne
        · have hz := hs.2
          rw [hf k le_rfl] at hz
          rw [Nat.zero_add, hin k le_rfl, Option.some.inj hz]
      unfold Task.fetchstr copyinstr
      rw [hrun, Kernel.ok_bind]
      dsimp only
      rw [if_neg (by decide), hlen, Kernel.ok_bind, Nat.zero_add]
      rfl
  · exact absurd hs (hnone k (by omega))

theorem Task.fetchstr_missed (t : Task) {s : MemAllocator} {vsrc : ℕ} (buf : ByteMem) {maxsz : ℤ}
    (hnone : ∀ k : ℕ, (k : ℤ) < maxsz → ¬s.NulAt t.pagetable vsrc k) :
    ∃ buf', s.copyinstr t.pagetable buf vsrc maxsz = .ok (-1, buf') ∧
      (∀ j : ℕ, maxsz ≤ j → buf' j = buf j) ∧ t.fetchstr s vsrc buf maxsz = .ok (-1, buf') := by
  obtain ⟨r, buf', hrun, hres⟩ := s.copyinstrFrom_spec t.pagetable vsrc maxsz.toNat 0 buf
    (Nat.lt_succ_self maxsz.toNat)
  rcases hres with ⟨rfl, k, hk, hs, -⟩ | ⟨rfl, -, m, hm, f, rfl⟩
  · exact absurd hs (hnone k (by omega))
  · refine ⟨_, hrun, fun j hj => ByteMem.blit_of_not_mem (by omega), ?_⟩
    unfold Task.fetchstr copyinstr
    rw [hrun, Kernel.ok_bind]
    rfl

/-- `copyinstr` succeeds exactly when the program has a string with its NUL in front of the limit.
The buffer has then the string and the NUL, `fetchstr` returns the length, and nothing is ever
written past the limit. -/
theorem Task.fetchstr_exact (t : Task) (s : MemAllocator) (vsrc : ℕ) (buf : ByteMem) (maxsz : ℤ) :
    ∃ r buf', s.copyinstr t.pagetable buf vsrc maxsz = .ok (r, buf') ∧ (r = 0 ∨ r = -1) ∧
      (r = 0 ↔ ∃ k : ℕ, (k : ℤ) < maxsz ∧ s.NulAt t.pagetable vsrc k) ∧
      (∀ k : ℕ, (k : ℤ) < maxsz → s.NulAt t.pagetable vsrc k →
        (∀ j ≤ k, s.userChar t.pagetable (vsrc + j) = some (buf' j)) ∧
        (∀ j > k, buf' j = buf j) ∧ t.fetchstr s vsrc buf maxsz = .ok (k, buf')) ∧
      ∀ j : ℕ, maxsz ≤ j → buf' j = buf j := by
  by_cases hs : ∃ k : ℕ, (k : ℤ) < maxsz ∧ s.NulAt t.pagetable vsrc k
  · obtain ⟨k, hk, hnul⟩ := hs
    obtain ⟨buf', hrun, hin, hout, hfetch⟩ := t.fetchstr_found buf hk hnul
    refine ⟨0, buf', hrun, .inl rfl, iff_of_true rfl ⟨k, hk, hnul⟩, fun k' _ hnul' =>
      ?_, fun j hj => ?_⟩
    · obtain rfl := hnul'.unique hnul
      exact ⟨hin, hout, hfetch⟩
    · exact hout j (by omega)
  · have hnone : ∀ k : ℕ, (k : ℤ) < maxsz → ¬s.NulAt t.pagetable vsrc k :=
      fun k hk hnul => hs ⟨k, hk, hnul⟩
    obtain ⟨buf', hrun, hout, -⟩ := t.fetchstr_missed buf hnone
    exact ⟨-1, buf', hrun, .inr rfl, iff_of_false (by decide) hs, fun k hk hnul =>
      absurd hnul (hnone k hk), hout⟩

end StartOS
