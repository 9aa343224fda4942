import StartOS.Fs.FailedTransfer
import StartOS.Os.UserTransfer

/-! # Vectored transfers

`sys_readv` and `sys_writev` copy a vector of buffers to their stack and make one
call of `VfsManager` for each of them. They are compared with the plain calls on
the same buffers, one after the other until one fails.
-/

namespace StartOS

open Hoare

namespace MemAllocator

/-- `copyin` of any length stops at the first byte it cannot reach. -/
theorem copyinFrom_outcome {s : MemAllocator} {root fuel : ℕ} (vsrc len : ℕ) (dst : List UInt8)
    (hfuel : len < fuel) :
    ∃ r out, s.copyinFrom root fuel vsrc len dst = .ok (r, dst ++ out) ∧
      ((r = 0 ∧ out.length = len) ∨
        (r = -1 ∧ out.length < len ∧ s.userPage root (vsrc + out.length) = none)) ∧
      ∀ j < out.length, s.userPage root (vsrc + j) ≠ none := by
  induction fuel generalizing vsrc len dst with
  | zero => exact absurd hfuel (Nat.not_lt_zero _)
  | succ fuel ih =>
    rw [copyinFrom]
    by_cases hlen : len = 0
    · subst hlen
      exact ⟨0, [], by rw [List.append_nil]; rfl, .inl ⟨rfl, rfl⟩, by simp⟩
    rw [if_neg hlen]
    dsimp only
    rw [walkAddr_eq_userPage, userPage_page s root (pgRoundDown_div vsrc), Kernel.ok_bind,
      sub_pgRoundDown]
    cases hp : s.userPage root vsrc with
    | none =>
      exact ⟨-1, [], by rw [List.append_nil]; rfl, .inr ⟨rfl, Nat.pos_of_ne_zero hlen, hp⟩, by simp⟩
    | some p =>
      have hlt := lt_maxVa_of_userPage hp
      have hmod : vsrc % pgSize < pgSize := Nat.mod_lt _ (by decide)
      have hvals : maxVa = 274877906944 ∧ pgSize = 4096 := by decide
      rw [Option.getD_some, if_neg (userPage_some.mp hp).2.2]
      obtain ⟨n, hn⟩ : ∃ n, n = min (pgSize - vsrc % pgSize) len := ⟨_, rfl⟩
      rw [← hn, Nat.mod_eq_of_lt (show vsrc + n < 2 ^ 64 by omega)]
      have hpage : ∀ j < n, s.userPage root (vsrc + j) ≠ none := by
        intro j hj
        have hsame : s.userPage root (vsrc + j) = s.userPage root vsrc :=
          userPage_page s root (by rw [hvals.2] at *; omega)
        rw [hsame, hp]
        simp
      obtain ⟨r, out, hrun, hend, hall⟩ := ih (vsrc + n) (len - n)
        (dst ++ (List.range n).map fun j => s.mem (p + vsrc % pgSize + j)) (by omega)
      refine ⟨r, ((List.range n).map fun j => s.mem (p + vsrc % pgSize + j)) ++ out, ?_, ?_, ?_⟩
      · rw [hrun, List.append_assoc]
      · simp only [List.length_append, List.length_map, List.length_range]
        rw [← Nat.add_assoc]
        rcases hend with ⟨hr, ho⟩ | ⟨hr, ho, hnone⟩
        · exact .inl ⟨hr, by omega⟩
        · exact .inr ⟨hr, by omega, hnone⟩
      · intro j hj
        simp only [List.length_append, List.length_map, List.length_range] at hj
        by_cases hjn : j < n
        · exact hpage j hjn
        · have := hall (j - n) (by omega)
          rwa [Nat.add_assoc, Nat.add_sub_cancel' (by omega)] at this

theorem copyin_outcome (s : MemAllocator) (root vsrc len : ℕ) :
    ∃ r out, s.copyin root vsrc len = .ok (r, out) ∧
      ((r = 0 ∧ out.length = len) ∨
        (r = -1 ∧ out.length < len ∧ s.userPage root (vsrc + out.length) = none)) ∧
      ∀ j < out.length, s.userPage root (vsrc + j) ≠ none :=
  copyinFrom_outcome vsrc len [] (Nat.lt_succ_self len)

end MemAllocator

structure Iovec where
  base : ℕ
  len : ℕ
  deriving DecidableEq, Repr

namespace VectoredIo

def vecSize : ℕ := 10

def iovecAt (bytes : List UInt8) (i : ℕ) : Iovec :=
  ⟨ByteMem.readLE (fun x => bytes.getD x 0) (16 * i) 8,
    ByteMem.readLE (fun x => bytes.getD x 0) (16 * i + 8) 8⟩

def iovecs (bytes : List UInt8) (n : ℕ) : List Iovec := (List.range n).map (iovecAt bytes)

variable {σ τ : Type}

def callOn (L : VfsManager.FileLayers σ) (d : VfsManager.Direction) (v : Iovec) :
    StateT (σ × Option File) Kernel ℤ := fun s =>
  match s.2 with
  | none => .error (.panic "fp is nullptr")
  | some fp => do
    let ((r, fp), s) ← VfsManager.transfer L d fp v.base (toInt32 v.len) s.1
    return (r, s, some fp)

section Call

variable (io : Iovec → StateT τ Kernel ℤ)

/-- The loop of `sys_writev` and `sys_readv`: the elements it made a call for, and the sum. -/
def callLoop : List Iovec → List Iovec → ℤ → StateT τ Kernel (List Iovec × ℤ)
  | [], done, sum => return (done, sum)
  | v :: vs, done, sum => do
    let r ← io v
    callLoop vs (done ++ [v]) (toInt32 (sum + r))

/-- `sys_writev` and `sys_readv` with their arguments. The store behind `vec` stops the kernel. -/
def vectored (ram : MemAllocator) (pagetable iovecAddr : ℕ) (n : ℤ) :
    StateT τ Kernel (List Iovec × ℤ) := do
  if n > vecSize then return ([], -1)
  let (r, vec) ← (liftM (ram.copyin pagetable iovecAddr (n * 16 % 2 ^ 64).toNat) :
    StateT τ Kernel (ℤ × List UInt8))
  if vec.length > vecSize * 16 then throw .fault
  if r < 0 then return ([], -1)
  callLoop io (iovecs vec n.toNat) [] 0

/-- The plain calls one after the other until one fails: the calls made, and the bytes
transferred or the error of the first call. -/
def plainLoop : List Iovec → List Iovec → ℤ → StateT τ Kernel (List Iovec × ℤ)
  | [], done, total => return (done, total)
  | v :: vs, done, total => do
    let r ← io v
    if r < 0 then return (done ++ [v], if done = [] then r else total)
    plainLoop vs (done ++ [v]) (total + r)

def plainCalls (ram : MemAllocator) (pagetable iovecAddr : ℕ) (n : ℤ) :
    StateT τ Kernel (List Iovec × ℤ) := do
  if n < 0 ∨ n > vecSize then return ([], -1)
  let (r, vec) ← (liftM (ram.copyin pagetable iovecAddr (16 * n).toNat) :
    StateT τ Kernel (ℤ × List UInt8))
  if r < 0 then return ([], -1)
  plainLoop io (iovecs vec n.toNat) [] 0

/-- From `s` on none of the calls fails, and their sum is an `int`. -/
def NoneFails : List Iovec → ℤ → τ → Prop
  | [], total, _ => total < 2 ^ 31
  | v :: vs, total, s =>
    match io v s with
    | .error _ => True
    | .ok (r, s) => 0 ≤ r ∧ NoneFails vs (total + r) s

end Call

variable {io : Iovec → StateT τ Kernel ℤ} {ram : MemAllocator} {pagetable iovecAddr : ℕ} {n : ℤ}
  {s : τ} {v : Iovec} {vs done : List Iovec} {total : ℤ}

/-- The states in which the plain calls are what a vectored transfer does: for a negative count
the vector ends before the store leaves `vec`, and a vector of more than one element is one none
of whose calls fails. -/
def Plain (io : Iovec → StateT τ Kernel ℤ) (ram : MemAllocator) (pagetable iovecAddr : ℕ) (n : ℤ)
    (s : τ) : Prop :=
  (n < 0 → ∀ vec, ram.copyin pagetable iovecAddr (vecSize * 16 + 1) ≠ .ok (0, vec)) ∧
    (0 ≤ n → n ≤ vecSize → n ≠ 1 → ∀ vec,
      ram.copyin pagetable iovecAddr (16 * n).toNat = .ok (0, vec) →
        NoneFails io (iovecs vec n.toNat) 0 s)

def ReturnsInt (io : Iovec → StateT τ Kernel ℤ) : Prop :=
  ∀ ⦃v s r s'⦄, io v s = .ok (r, s') → -2 ^ 31 ≤ r ∧ r < 2 ^ 31

theorem lift_bind_of_ok {α β : Type} {x : Kernel α} {a : α} {f : α → StateT τ Kernel β}
    (h : x = .ok a) : ((liftM x : StateT τ Kernel α) >>= f) s = f a s := by
  rw [h]
  rfl

theorem toInt32_add (x y : ℤ) : toInt32 (toInt32 x + y) = toInt32 (x + y) := by
  unfold toInt32
  exact Int.bmod_add_bmod

theorem toInt32_emod (x : ℤ) : toInt32 x % 2 ^ 32 = x % 2 ^ 32 := by
  unfold toInt32
  rw [Int.bmod_def]
  split <;> omega

theorem callLoop_of_noneFails (h : NoneFails io vs total s) (ht : 0 ≤ total) :
    callLoop io vs done (toInt32 total) s = plainLoop io vs done total s := by
  induction vs generalizing done total s with
  | nil =>
    have hlt : total < 2 ^ 31 := h
    rw [callLoop, plainLoop, toInt32_of_lt (by omega) hlt]
  | cons v vs ih =>
    rw [callLoop, plainLoop]
    rw [NoneFails] at h
    cases hv : io v s with
    | error e => rw [bind_of_error hv, bind_of_error hv]
    | ok p =>
      obtain ⟨r, s'⟩ := p
      rw [hv] at h
      obtain ⟨hr, h⟩ := h
      rw [bind_of_ok hv, bind_of_ok hv, if_neg (by omega), toInt32_add]
      exact ih h (by omega)

theorem callLoop_done {sum : ℤ} {s' : τ} {out : List Iovec × ℤ}
    (h : callLoop io vs done sum s = .ok (out, s')) : out.1 = done ++ vs := by
  induction vs generalizing done sum s with
  | nil =>
    cases h
    simp
  | cons v vs ih =>
    obtain ⟨r, s₁, -, h⟩ := bind_eq_ok.mp h
    rw [ih h, List.append_assoc, List.singleton_append]

/-- A call that fails is followed by the next one, or it is the last and lowers the sum. -/
theorem noneFails_of_eq (hio : ReturnsInt io) (ht : 0 ≤ total) (hlen : done = [] → vs.length ≠ 1)
    (h : callLoop io vs done (toInt32 total) s = plainLoop io vs done total s) :
    NoneFails io vs total s := by
  induction vs generalizing done total s with
  | nil =>
    rw [callLoop, plainLoop, pure_apply, pure_apply, Except.ok.injEq, Prod.mk.injEq,
      Prod.mk.injEq] at h
    exact h.1.2 ▸ (toInt32_bounds total).2
  | cons v vs ih =>
    rw [callLoop, plainLoop] at h
    rw [NoneFails]
    cases hv : io v s with
    | error e => trivial
    | ok p =>
      obtain ⟨r, s'⟩ := p
      rw [bind_of_ok hv, bind_of_ok hv, toInt32_add] at h
      by_cases hr : r < 0
      · exfalso
        rw [if_pos hr] at h
        have hdone := callLoop_done h
        obtain rfl : vs = [] := by simpa using hdone
        have hd : done ≠ [] := fun hd => hlen hd rfl
        rw [if_neg hd, callLoop, pure_apply, pure_apply, Except.ok.injEq, Prod.mk.injEq,
          Prod.mk.injEq] at h
        have hmod := toInt32_emod (total + r)
        have hint := hio hv
        rw [h.1.2] at hmod
        omega
      · rw [if_neg hr] at h
        exact ⟨by omega, ih (by omega) (by simp) h⟩

theorem callLoop_single (hio : ReturnsInt io) :
    callLoop io [v] [] 0 s = plainLoop io [v] [] 0 s := by
  rw [callLoop, plainLoop]
  cases hv : io v s with
  | error e => rw [bind_of_error hv, bind_of_error hv]
  | ok p =>
    obtain ⟨r, s'⟩ := p
    have hint := hio hv
    rw [bind_of_ok hv, bind_of_ok hv, zero_add, toInt32_of_lt hint.1 hint.2]
    split <;> rfl

theorem vectored_of_neg (hn : -2 ^ 31 ≤ n) (hneg : n < 0) :
    vectored io ram pagetable iovecAddr n s = .ok (([], -1), s) ↔
      ∀ vec, ram.copyin pagetable iovecAddr (vecSize * 16 + 1) ≠ .ok (0, vec) := by
  obtain ⟨r, vec, hrun, hend, hall⟩ :=
    ram.copyin_outcome pagetable iovecAddr (n * 16 % 2 ^ 64).toNat
  obtain ⟨r', vec', hrun', hend', hall'⟩ :=
    ram.copyin_outcome pagetable iovecAddr (vecSize * 16 + 1)
  have hsize : vecSize = 10 := rfl
  rw [vectored, if_neg (by omega), lift_bind_of_ok hrun, hrun']
  simp only
  by_cases hlong : vec.length > vecSize * 16
  · -- the store has left `vec`, and so 161 bytes can be read
    rw [if_pos hlong, bind_of_error throw_apply]
    refine iff_of_false (by simp) fun hno => hno vec' ?_
    rcases hend' with ⟨rfl, -⟩ | ⟨-, hlt, hnone⟩
    · rfl
    · exact absurd hnone (hall _ (by omega))
  · rw [if_neg hlong]
    have hr : r = -1 := by
      rcases hend with ⟨-, ho⟩ | ⟨hr, -⟩
      · omega
      · exact hr
    rw [if_pos (by omega)]
    refine iff_of_true rfl fun out he => ?_
    cases he
    rcases hend with ⟨-, ho⟩ | ⟨-, -, hnone⟩
    · omega
    · rcases hend' with ⟨-, ho'⟩ | ⟨he, -⟩
      · exact hall' _ (by omega) hnone
      · cases he

/-- A vectored transfer does what the plain calls do exactly in the states of `Plain`. -/
theorem vectored_eq_iff (hio : ReturnsInt io) (hn : -2 ^ 31 ≤ n) :
    vectored io ram pagetable iovecAddr n s = plainCalls io ram pagetable iovecAddr n s ↔
      Plain io ram pagetable iovecAddr n s := by
  have hsize : (vecSize : ℤ) = 10 := rfl
  have hsize' : vecSize = 10 := rfl
  by_cases hneg : n < 0
  · have hplain : plainCalls io ram pagetable iovecAddr n s = .ok (([], -1), s) := by
      rw [plainCalls, if_pos (Or.inl hneg)]
      rfl
    rw [hplain, vectored_of_neg hn hneg, Plain]
    exact ⟨fun h => ⟨fun _ => h, fun h0 => absurd h0 (by omega)⟩, fun h => h.1 hneg⟩
  by_cases hbig : n > vecSize
  · rw [vectored, if_pos hbig, plainCalls, if_pos (Or.inr hbig)]
    exact iff_of_true rfl ⟨fun h => absurd h hneg, fun _ h => absurd h (by omega)⟩
  obtain ⟨r, vec, hrun, hend, -⟩ :=
    ram.copyin_outcome pagetable iovecAddr (16 * n).toNat
  have hlen : (n * 16 % 2 ^ 64).toNat = (16 * n).toNat := by omega
  rw [vectored, if_neg hbig, plainCalls, if_neg (by omega), hlen, lift_bind_of_ok hrun,
    lift_bind_of_ok hrun]
  simp only
  rw [if_neg (by omega), Plain]
  have hfirst : n < 0 → ∀ vec,
      ram.copyin pagetable iovecAddr (vecSize * 16 + 1) ≠ .ok (0, vec) := fun h => absurd h hneg
  rcases hend with ⟨rfl, -⟩ | ⟨rfl, -⟩
  · rw [if_neg (by omega), if_neg (by omega), and_iff_right hfirst, hrun]
    have hvs : (iovecs vec n.toNat).length = n.toNat := by simp [iovecs]
    constructor
    · intro h h0 _ h1 vec' he
      cases he
      exact noneFails_of_eq hio le_rfl (fun _ => by omega) h
    · intro h
      by_cases h1 : n = 1
      · subst h1
        exact callLoop_single hio
      · exact callLoop_of_noneFails (h (by omega) (by omega) h1 vec rfl) le_rfl
  · rw [if_pos (by omega), if_pos (by omega), hrun]
    exact iff_of_true rfl ⟨hfirst, fun _ _ _ vec' he => by cases he⟩

theorem returnsInt_callOn (L : VfsManager.FileLayers σ) (d : VfsManager.Direction) :
    ReturnsInt (callOn L d) := by
  rintro v ⟨s, fp⟩ r s' h
  cases fp with
  | none => cases h
  | some fp =>
    obtain ⟨⟨⟨z, fp'⟩, s₁⟩, ht, h⟩ := Kernel.bind_ok.mp h
    cases h
    exact VfsManager.transfer_int ht

def sysWritev (L : VfsManager.FileLayers σ) := vectored (callOn L .write)

def sysReadv (L : VfsManager.FileLayers σ) := vectored (callOn L .read)

/-- `sys_writev` and `sys_readv` are the plain calls up to the first failure exactly in the states
of `Plain`. -/
theorem sysWritev_sysReadv_eq_iff (L : VfsManager.FileLayers σ) (ram : MemAllocator)
    (pagetable iovecAddr : ℕ) {n : ℤ} (hn : -2 ^ 31 ≤ n) (s : σ × Option File) :
    (sysWritev L ram pagetable iovecAddr n s =
        plainCalls (callOn L .write) ram pagetable iovecAddr n s ↔
      Plain (callOn L .write) ram pagetable iovecAddr n s) ∧
    (sysReadv L ram pagetable iovecAddr n s =
        plainCalls (callOn L .read) ram pagetable iovecAddr n s ↔
      Plain (callOn L .read) ram pagetable iovecAddr n s) :=
  ⟨vectored_eq_iff (returnsInt_callOn L .write) hn, vectored_eq_iff (returnsInt_callOn L .read) hn⟩

def reader : (Pipe × UserBytes) × Option File :=
  ((Pipe.create fun _ => 0, fun _ => none), some VfsManager.readEnd)

def twoBytes : (Pipe × UserBytes) × Option File :=
  (({ Pipe.create (fun _ => 7) with nwrite := 2 }, fun _ => some 0), some VfsManager.readEnd)

def twoBuffers : List UInt8 :=
  [100, 0, 0, 0, 0, 0, 0, 0, 1, 0, 0, 0, 0, 0, 0, 0, 101, 0, 0, 0, 0, 0, 0, 0, 1, 0, 0, 0, 0, 0, 0, 0]

theorem iovecs_twoBuffers : iovecs twoBuffers 2 = [⟨100, 1⟩, ⟨101, 1⟩] := by decide +kernel

theorem reads_twoBytes : ∃ s₁ s₂,
    callOn (VfsManager.pipeLayers false) .read ⟨100, 1⟩ twoBytes = .ok (1, s₁) ∧
      callOn (VfsManager.pipeLayers false) .read ⟨101, 1⟩ s₁ = .ok (1, s₂) := ⟨_, _, rfl, rfl⟩

theorem sysReadv_twoBytes : ∃ s₁ s₂ s',
    (oneProcess []).ram.userAlloc Task.twoPages.pagetable 0 8192 = .ok (8192, s₁) ∧
      s₁.copyout Task.twoPages.pagetable 16 (fun j => twoBuffers.getD j 0) 32 = .ok (0, s₂) ∧
      sysReadv (VfsManager.pipeLayers false) s₂ Task.twoPages.pagetable 16 2 twoBytes =
        .ok (([⟨100, 1⟩, ⟨101, 1⟩], 2), s') ∧
      plainCalls (callOn (VfsManager.pipeLayers false) .read) s₂ Task.twoPages.pagetable 16 2
        twoBytes = .ok (([⟨100, 1⟩, ⟨101, 1⟩], 2), s') := by
  obtain ⟨s₁, halloc, hspace, hw, hacc⟩ := MemAllocator.userAlloc_twoPages
  obtain ⟨s₂, hout, hin⟩ := (hspace.pagesApart hw).copyout_copyin 16 twoBuffers
    fun j hj => hacc _ (by
      have hlen : twoBuffers.length = 32 := rfl
      omega)
  obtain ⟨t₁, t₂, hfirst, hsecond⟩ := reads_twoBytes
  have hplain : plainCalls (callOn (VfsManager.pipeLayers false) .read) s₂ Task.twoPages.pagetable
      16 2 twoBytes = .ok (([⟨100, 1⟩, ⟨101, 1⟩], 2), t₂) := by
    rw [plainCalls, if_neg (by decide)]
    refine (lift_bind_of_ok (a := (0, twoBuffers)) hin).trans ?_
    simp only
    rw [if_neg (by decide)]
    refine (congrArg (fun l => plainLoop _ l [] 0 twoBytes) iovecs_twoBuffers).trans ?_
    rw [plainLoop, bind_of_ok hfirst, if_neg (by decide), plainLoop, bind_of_ok hsecond,
      if_neg (by decide), plainLoop]
    rfl
  have hnone : NoneFails (callOn (VfsManager.pipeLayers false) .read) [⟨100, 1⟩, ⟨101, 1⟩] 0
      twoBytes := by
    rw [NoneFails, hfirst]
    refine ⟨by decide, ?_⟩
    rw [NoneFails, hsecond]
    exact ⟨by decide, show (0 + 1 + 1 : ℤ) < 2 ^ 31 by decide⟩
  have hsame := (sysWritev_sysReadv_eq_iff (VfsManager.pipeLayers false) s₂ Task.twoPages.pagetable 16
    (show -2 ^ 31 ≤ (2 : ℤ) by decide) twoBytes).2.mpr
    ⟨fun h => absurd h (by decide), fun _ _ _ vec hvec => by
      obtain rfl := (Prod.mk.inj (Except.ok.inj (hin.symm.trans hvec))).2
      exact iovecs_twoBuffers ▸ hnone⟩
  exact ⟨s₁, s₂, t₂, halloc, hout, hsame.trans hplain, hplain⟩

/-- With a page of its own behind the vector a count of -1 writes past `vec`, and two calls that
are refused sum up to -2. -/
theorem sysWritev_differs : ∃ b s₁,
    Task.twoPages.loadIfValid (fun _ => []) (fun _ => .zero) 16 (oneProcess []).ram = .ok (b, s₁) ∧
      sysWritev (VfsManager.pipeLayers false) s₁ Task.twoPages.pagetable 16 (-1) reader ≠
        .ok (([], -1), reader) ∧
      plainCalls (callOn (VfsManager.pipeLayers false) .write) s₁ Task.twoPages.pagetable 16 (-1)
        reader = .ok (([], -1), reader) ∧
      ∃ v w,
        sysWritev (VfsManager.pipeLayers false) s₁ Task.twoPages.pagetable 16 2 reader =
          .ok (([v, w], -2), reader) ∧
        plainCalls (callOn (VfsManager.pipeLayers false) .write) s₁ Task.twoPages.pagetable 16 2
          reader = .ok (([v], -1), reader) := by
  obtain ⟨b, s₁, hload, hspace, hw, hfirst, -⟩ :=
    Task.twoPages_ready.1.argaddr_loads (fun _ => []) Task.twoPages_ready.2 16
  have hread : ∀ len ≤ 4080, ∃ vec, s₁.copyin Task.twoPages.pagetable 16 len = .ok (0, vec) := by
    intro len hlen
    obtain ⟨r, vec, hrun, ⟨rfl, -⟩ | ⟨-, hnot⟩⟩ := hspace.copyin hw 16 len
    · exact ⟨vec, hrun⟩
    · refine absurd (fun a h₁ h₂ hun => ?_) hnot
      have hpage : pgRoundDown a = pgRoundDown 16 := by
        unfold pgRoundDown
        omega
      exact hfirst (Task.twoPages_faultPage (show 16 < 8192 by omega)) (hun.page hpage.symm)
  refine ⟨b, s₁, hload, fun h => ?_, rfl, ?_⟩
  · obtain ⟨vec, hvec⟩ := hread (vecSize * 16 + 1) (by decide)
    exact (vectored_of_neg (by decide) (by decide)).mp h vec hvec
  · obtain ⟨vec, hvec⟩ := hread 32 (by decide)
    obtain ⟨r, out, hrun, hend, -⟩ := s₁.copyin_outcome Task.twoPages.pagetable 16 32
    have hlen : ¬vec.length > vecSize * 16 := by
      rw [hvec] at hrun
      cases hrun
      have hsize : vecSize = 10 := rfl
      omega
    have hvs : iovecs vec 2 = [iovecAt vec 0, iovecAt vec 1] := rfl
    refine ⟨iovecAt vec 0, iovecAt vec 1, ?_, ?_⟩
    · rw [sysWritev, vectored, if_neg (by decide)]
      refine (lift_bind_of_ok (a := (0, vec)) hvec).trans ?_
      simp only
      rw [if_neg hlen, if_neg (by decide)]
      exact congrArg (fun l => callLoop _ l [] 0 reader) hvs
    · rw [plainCalls, if_neg (by decide)]
      refine (lift_bind_of_ok (a := (0, vec)) hvec).trans ?_
      simp only
      rw [if_neg (by decide)]
      exact congrArg (fun l => plainLoop _ l [] 0 reader) hvs

end VectoredIo

end StartOS
