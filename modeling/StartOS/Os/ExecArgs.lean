import Mathlib.Data.List.Perm.Basic
import StartOS.Lib.Logged
import StartOS.Os.UserString
import StartOS.Os.VectoredIo
import StartOS.Os.WorkingDir

/-! # The arguments of `exec`

`sys_exec` takes a page for each argument string and notes it in `argv`, which has
`MAXARG` places. Its loop stops at the first null pointer, and two more loops give
the pages back. What it does is kept in a log that outlives a run which stops.
-/

namespace StartOS

open MemAllocator

/-- What `sys_exec` has done: the memory, the words from `argv` on, the indices at which it has
read or written `argv`, and the pages that were taken for strings and given back, latest first. -/
structure ArgState where
  ram : MemAllocator
  argv : ℕ → ℕ
  touched : List ℕ
  taken : List ℕ
  released : List ℕ

abbrev ArgM := Logged ArgState Halt

def Task.fetchaddr (t : Task) (s : MemAllocator) (addr : ℕ) : Kernel (Option ℕ) := do
  if addr ≥ toU64 t.sz ∨ (addr + 8) % 2 ^ 64 > toU64 t.sz then return none
  let (r, out) ← s.copyin t.pagetable addr 8
  if r ≠ 0 then return none
  return some (fieldAt out 0 8)

/-- `uarg` in turn `i`. Without an array there is no first argument. -/
def Task.execArg (t : Task) (s : MemAllocator) (uargv i : ℕ) : Kernel (Option ℕ) :=
  if uargv = 0 then return some 0 else t.fetchaddr s ((uargv + 8 * i) % 2 ^ 64)

namespace ArgM

open Logged

/-- `argv[i] = p`. -/
def setArgv (i p : ℕ) : ArgM Unit :=
  modify fun a => { a with
    argv := Function.update a.argv i p
    touched := i :: a.touched }

/-- `argv[i]`. -/
def getArgv (i : ℕ) : ArgM ℕ := do
  let a ← get
  set { a with touched := i :: a.touched }
  return a.argv i

/-- `memAllocator.alloc` for a string. -/
def takePage : ArgM ℕ := do
  let a ← get
  let p := a.ram.alloc.1
  set { a with
    ram := a.ram.alloc.2
    taken := if p = 0 then a.taken else p :: a.taken }
  return p

/-- `memAllocator.free` of a string. -/
def releasePage (p : ℕ) : ArgM Unit := do
  let a ← get
  let ram ← Logged.ofExcept (a.ram.free p)
  set { a with
    ram := ram
    released := p :: a.released }

/-- `fetchstr` into the page `p`. -/
def fetchString (t : Task) (uarg p : ℕ) : ArgM ℤ := do
  let a ← get
  let (r, buf) ← Logged.ofExcept (t.fetchstr a.ram uarg (fun j => a.ram.mem (p + j)) pgSize)
  set { a with ram := { a.ram with mem := a.ram.mem.blit p pgSize buf } }
  return r

/-- The loop that fills `argv` from index `i` on, of which `n` turns are left; `false` is `bad`. -/
def gather (t : Task) (uargv : ℕ) : ℕ → ℕ → ArgM Bool
  | 0, _ => return false
  | n + 1, i => do
    let a ← get
    match ← Logged.ofExcept (t.execArg a.ram uargv i) with
    | none => return false
    | some uarg =>
      if uarg = 0 then
        setArgv i 0
        return true
      else
        let p ← takePage
        setArgv i p
        if p = 0 then return false
        let r ← fetchString t uarg p
        if r < 0 then return false
        gather t uargv n (i + 1)

def releaseArgs : ℕ → ℕ → ArgM Unit
  | 0, _ => return ()
  | n + 1, i => do
    let p ← getArgv i
    if p ≠ 0 then
      releasePage p
      releaseArgs n (i + 1)

end ArgM

/-- What `sys_exec` finds: the inode that a path leads to, the strings behind those of the new
environment, and what is on the stack, in `path`, in `ustack` and behind `argv`. -/
structure ExecSurroundings where
  found : List UInt8 → Option ℕ
  env : ℕ → Option (List UInt8)
  path : ByteMem
  ustack : ℕ → ℕ
  behind : ℕ → ℕ

def argaddr (n : ℕ) : OsM ℕ := do
  let s ← get
  let addr := s.ram.mem.readLE (s.myTask.trapframe + 112 + 8 * n) 8
  let _ ← loadIfValid addr
  return addr

/-- The path and the array of `sys_exec`, if it goes on with them. -/
def execParams (k : ExecSurroundings) : OsM (Option (List UInt8 × ℕ)) := do
  let addr ← argaddr 0
  let s ← get
  let (n, path) ← (s.myTask.task.fetchstr s.ram addr k.path maxPath : Kernel _)
  if n < 0 then return none
  let uargv ← argaddr 1
  if n < 1 then return none
  return some ((List.range n.toNat).map path, uargv)

/-- The strings in the pages of `argv`. -/
def ArgState.strings (a : ArgState) (i : ℕ) : Option (List UInt8) :=
  if a.argv i = 0 then none
  else some (((List.range pgSize).map fun j => a.ram.mem (a.argv i + j)).takeWhile (· ≠ 0))

/-- `calAbsolute`, whose array takes paths shorter than `MAXPATH`, and `exec`. -/
def execAbsolute (k : ExecSurroundings) (path : List UInt8) (argv : ℕ → Option (List UInt8)) :
    OsM ℤ := do
  let path := absolutePath (dirPath (← get).myTask.currentDir) path
  if path.length ≥ maxPath then throw .fault
  exec (k.found path) path argv k.env k.ustack

/-- `sys_exec` when it has its path and the array. -/
def execGathered (k : ExecSurroundings) (path : List UInt8) (uargv : ℕ) (s : System) :
    ArgM (ℤ × System) := do
  if ← ArgM.gather s.myTask.task uargv (maxArg + 1) 0 then
    let a ← get
    let (r, s) ← Logged.ofExcept (execAbsolute k path a.strings { s with ram := a.ram })
    set { a with ram := s.ram }
    ArgM.releaseArgs (maxArg + 1) 0
    return (r, { s with ram := (← get).ram })
  else
    ArgM.releaseArgs (maxArg + 1) 0
    return (-1, { s with ram := (← get).ram })

/-- `argv` after `memset`. -/
def ArgState.start (k : ExecSurroundings) (ram : MemAllocator) : ArgState where
  ram := ram
  argv i := if i < maxArg then 0 else k.behind i
  touched := List.range maxArg
  taken := []
  released := []

/-- `sys_exec`, with what it has done to its arguments if it got to them. -/
def sysExec (k : ExecSurroundings) (s : System) : Kernel (ℤ × System) × Option ArgState :=
  match execParams k s with
  | .error e => (.error e, none)
  | .ok (none, s) => (.ok (-1, s), none)
  | .ok (some (path, uargv), s) =>
    ((execGathered k path uargv s).exec (.start k s.ram)).map id some

/-- `argv` is not left, and when the call returns each page that was taken for a string has been
given back once, and no other page. -/
def GathersSafely (k : ExecSurroundings) (s : System) : Prop :=
  ∀ a, (sysExec k s).2 = some a → (∀ i ∈ a.touched, i < maxArg) ∧
    ∀ v, (sysExec k s).1 = .ok v → a.released.Perm a.taken

/-- In turn `j` there is a pointer that is not null and a page for its string, and if this is not
the last turn, the string ends within a page. -/
def Task.CanTake (t : Task) (s : MemAllocator) (uargv j : ℕ) : Prop :=
  j < s.freeList.length ∧ ∃ p, p ≠ 0 ∧ t.execArg s uargv j = .ok (some p) ∧
    (j + 1 < maxArg → ∃ n < pgSize, s.NulAt t.pagetable p n)

/-- The arguments are as many as `argv` has places, or more. -/
def Task.FillsArgv (t : Task) (s : MemAllocator) (uargv : ℕ) : Prop :=
  ∀ j < maxArg, t.CanTake s uargv j

namespace MemAllocator

variable {s s' s'' : MemAllocator} {root va vsrc len fuel n p k : ℕ} {dst : List UInt8}
    {buf : ByteMem}

structure SameUser (s s' : MemAllocator) (root : ℕ) : Prop where
  page : ∀ va, s'.userPage root va = s.userPage root va
  mem : ∀ va p, s.userPage root va = some p → ∀ x, p ≤ x → x < p + pgSize → s'.mem x = s.mem x

/-- `n` free pages have been taken, and only pages that were free have been written. -/
structure TookPages (s s' : MemAllocator) (n : ℕ) : Prop where
  kend : s'.kend = s.kend
  freeList : s'.freeList = s.freeList.drop n
  mem : ∀ x, (∀ p ∈ s.freeList, x < p ∨ p + pgSize ≤ x) → s'.mem x = s.mem x

section Copies

variable (h : SameUser s s' root)
include h

theorem SameUser.copyinFrom :
    s'.copyinFrom root fuel vsrc len dst = s.copyinFrom root fuel vsrc len dst := by
  induction fuel generalizing vsrc len dst with
  | zero => rfl
  | succ fuel ih =>
    rw [MemAllocator.copyinFrom, MemAllocator.copyinFrom]
    dsimp only
    rw [walkAddr_eq_userPage, walkAddr_eq_userPage, h.page]
    split
    · rfl
    · rw [Kernel.ok_bind, Kernel.ok_bind]
      cases hp : s.userPage root (pgRoundDown vsrc) with
      | none => rfl
      | some p =>
        have hoff := Nat.mod_lt vsrc (show 0 < pgSize by decide)
        have hbytes : (List.range (min (pgSize - (vsrc - pgRoundDown vsrc)) len)).map
            (fun j => s'.mem (p + (vsrc - pgRoundDown vsrc) + j)) =
            (List.range (min (pgSize - (vsrc - pgRoundDown vsrc)) len)).map
            (fun j => s.mem (p + (vsrc - pgRoundDown vsrc) + j)) := by
          apply List.map_congr_left
          intro j hj
          have hj' := List.mem_range.mp hj
          rw [sub_pgRoundDown] at hj' ⊢
          exact h.mem _ p hp _ (by omega) (by omega)
        simp only [Option.getD_some, hbytes, ih]

theorem SameUser.copyin : s'.copyin root vsrc len = s.copyin root vsrc len := h.copyinFrom

theorem SameUser.userChar : s'.userChar root va = s.userChar root va := by
  unfold MemAllocator.userChar image
  rw [h.page]
  cases hp : s.userPage root va with
  | none => rfl
  | some p =>
    have hoff := Nat.mod_lt va (show 0 < pgSize by decide)
    exact congrArg some (h.mem va p hp (p + va % pgSize) (by omega) (by omega))

theorem SameUser.nulAt : s'.NulAt root vsrc k ↔ s.NulAt root vsrc k := by
  unfold NulAt
  simp only [h.userChar]

end Copies

namespace TookPages

theorem refl (s : MemAllocator) : TookPages s s 0 := ⟨rfl, rfl, fun _ _ => rfl⟩

theorem wellFormed (h : TookPages s s' n) (hw : s.WellFormed) : s'.WellFormed := by
  constructor
  · exact h.kend ▸ hw.kend_pos
  · exact h.freeList ▸ hw.nodup.sublist (List.drop_sublist n _)
  · intro p hp
    rw [h.freeList] at hp
    exact (hw.isPage p (List.mem_of_mem_drop hp)).of_kend h.kend

theorem take (h : TookPages s s' n) (ht : Taken s' s'' p) :
    TookPages s s'' (n + 1) ∧ p ∈ s.freeList := by
  have hdrop : s.freeList.drop n = p :: s''.freeList := h.freeList ▸ ht.freeList
  have hp : p ∈ s.freeList := List.mem_of_mem_drop (hdrop ▸ List.mem_cons_self)
  refine ⟨⟨ht.kend.trans h.kend, ?_, fun x hx => ?_⟩, hp⟩
  · rw [← List.drop_drop, hdrop, List.drop_one, List.tail_cons]
  · exact (ht.mem x (hx p hp)).trans (h.mem x hx)

theorem write (h : TookPages s s' n) (hp : p ∈ s.freeList) :
    TookPages s { s' with mem := s'.mem.blit p pgSize buf } n where
  kend := h.kend
  freeList := h.freeList
  mem x hx := (ByteMem.blit_of_not_mem (hx p hp)).trans (h.mem x hx)

theorem sameUser (h : TookPages s s' n) (hs : Space s root) (hw : s.WellFormed) :
    SameUser s s' root := by
  have hout : ∀ q, s.IsPage q → q ∉ s.freeList → ∀ x, q ≤ x → x < q + pgSize →
      s'.mem x = s.mem x := by
    intro q hq hfree x hx hx'
    apply h.mem
    intro p hp
    have hne : q ≠ p := by
      rintro rfl
      exact hfree hp
    exact hq.disjoint (hw.isPage p hp) hne hx hx'
  have hfree : ∀ p ∈ s.footprint root, p ∉ s'.freeList := by
    intro p hp hmem
    rw [h.freeList] at hmem
    exact hs.footprint_taken hp (List.mem_of_mem_drop hmem)
  obtain ⟨hs', -, hleaf⟩ := hs.of_agree h.kend hfree fun l n hl hn =>
    hout n (hs.table.isPage l n hl hn) (hs.table.taken l n hl hn)
  have hpte : ∀ va < maxVa, s'.walkPte root va = s.walkPte root va := by
    intro va hva
    rw [hs'.table.walkPte_eq (h.wellFormed hw) hva, hs.table.walkPte_eq hw hva, hleaf]
  constructor
  · intro va
    unfold userPage
    by_cases hva : va < maxVa
    · rw [hpte va hva]
    · simp only [hva, false_and, if_false]
  · intro va p hp
    obtain ⟨⟨hva, hvalid, huser⟩, rfl, -⟩ := userPage_some.mp hp
    rw [hs.table.walkPte_eq hw hva] at hvalid huser ⊢
    have hframe : s.userFrame root va = some (pte2pa (s.leaf root va)) := by
      rw [userFrame, if_pos ⟨hvalid, huser⟩]
    exact hout _ (hs.isPage va hva _ hframe) (hs.taken va hva _ hframe)

end TookPages

theorem copyinFrom_total (s : MemAllocator) (root vsrc : ℕ) (dst : List UInt8) (hlen : len < fuel) :
    ∃ r out, s.copyinFrom root fuel vsrc len dst = .ok (r, out) := by
  induction fuel generalizing vsrc len dst with
  | zero => exact absurd hlen (Nat.not_lt_zero _)
  | succ fuel ih =>
    rw [copyinFrom]
    split
    · exact ⟨_, _, rfl⟩
    · rename_i hne
      dsimp only
      rw [walkAddr_eq_userPage, Kernel.ok_bind]
      split
      · exact ⟨_, _, rfl⟩
      · have hoff := Nat.mod_lt vsrc (show 0 < pgSize by decide)
        apply ih
        rw [sub_pgRoundDown]
        omega

end MemAllocator

variable {s : MemAllocator} {t : Task} {uargv addr i j k n p : ℕ} {a a' : ArgState}

theorem Task.fetchaddr_total (t : Task) (s : MemAllocator) (addr : ℕ) :
    ∃ o, t.fetchaddr s addr = .ok o := by
  obtain ⟨r, out, hrun⟩ := copyinFrom_total s t.pagetable addr [] (Nat.lt_succ_self 8)
  unfold Task.fetchaddr copyin
  split
  · exact ⟨_, rfl⟩
  · rw [hrun, Kernel.ok_bind]
    dsimp only
    split <;> exact ⟨_, rfl⟩

theorem Task.execArg_total (t : Task) (s : MemAllocator) (uargv i : ℕ) :
    ∃ o, t.execArg s uargv i = .ok o := by
  unfold Task.execArg
  split
  · exact ⟨_, rfl⟩
  · exact t.fetchaddr_total s _

theorem MemAllocator.SameUser.execArg {s' : MemAllocator} (h : SameUser s s' t.pagetable)
    (uargv i : ℕ) : t.execArg s' uargv i = t.execArg s uargv i := by
  unfold Task.execArg Task.fetchaddr
  rw [h.copyin]

theorem Task.fetchstr_page (t : Task) (s : MemAllocator) (addr : ℕ) (buf : ByteMem) :
    ∃ r buf', t.fetchstr s addr buf pgSize = .ok (r, buf') ∧
      (0 ≤ r ↔ ∃ n < pgSize, s.NulAt t.pagetable addr n) := by
  by_cases hs : ∃ n : ℕ, (n : ℤ) < (pgSize : ℤ) ∧ s.NulAt t.pagetable addr n
  · obtain ⟨n, hn, hnul⟩ := hs
    obtain ⟨buf', -, -, -, hfetch⟩ := t.fetchstr_found buf hn hnul
    exact ⟨n, buf', hfetch, iff_of_true (Int.natCast_nonneg n) ⟨n, by exact_mod_cast hn, hnul⟩⟩
  · have hnone : ∀ n : ℕ, (n : ℤ) < (pgSize : ℤ) → ¬s.NulAt t.pagetable addr n :=
      fun n hn hnul => hs ⟨n, hn, hnul⟩
    obtain ⟨buf', -, -, hfetch⟩ := t.fetchstr_missed buf hnone
    refine ⟨-1, buf', hfetch, iff_of_false (by decide) ?_⟩
    rintro ⟨n, hn, hnul⟩
    exact hs ⟨n, by exact_mod_cast hn, hnul⟩

/-- The first `k` places of `argv` hold the pages that have been taken, and the next ones are
null. -/
structure Gathered (s : MemAllocator) (k : ℕ) (a : ArgState) : Prop where
  took : TookPages s a.ram k
  pages : ∀ j < k, a.argv j ≠ 0 ∧ s.IsPage (a.argv j)
  rest : ∀ j, k ≤ j → j < maxArg → a.argv j = 0
  taken : a.taken = ((List.range k).map a.argv).reverse
  released : a.released = []
  touched : ∀ j ∈ a.touched, j < maxArg ∨ j ≤ k

theorem gathered_start (k : ExecSurroundings) (s : MemAllocator) :
    Gathered s 0 (.start k s) where
  took := .refl s
  pages j hj := absurd hj (Nat.not_lt_zero j)
  rest _ _ hj := if_pos hj
  taken := rfl
  released := rfl
  touched _ hj := .inl (List.mem_range.mp hj)

namespace Gathered

theorem null (h : Gathered s k a) :
    Gathered s k { a with argv := Function.update a.argv k 0, touched := k :: a.touched } := by
  have hsame : ∀ j < k, Function.update a.argv k 0 j = a.argv j := fun j hj =>
    Function.update_of_ne hj.ne 0 a.argv
  constructor
  · exact h.took
  · intro j hj
    dsimp only
    rw [hsame j hj]
    exact h.pages j hj
  · intro j hj hlt
    dsimp only
    rw [Function.update_apply]
    split
    · rfl
    · exact h.rest j hj hlt
  · refine h.taken.trans (congrArg List.reverse (List.map_congr_left fun j hj => ?_))
    exact (hsame j (List.mem_range.mp hj)).symm
  · exact h.released
  · intro j hj
    rcases List.mem_cons.mp hj with rfl | hj
    · exact .inr le_rfl
    · exact h.touched j hj

theorem page {ram ram' : MemAllocator} {buf : ByteMem} (h : Gathered s k a) (hw : s.WellFormed)
    (hp : p ≠ 0) (ht : Taken a.ram ram p)
    (hram : ram' = { ram with mem := ram.mem.blit p pgSize buf }) :
    Gathered s (k + 1) { a with
      ram := ram'
      argv := Function.update a.argv k p
      touched := k :: a.touched
      taken := p :: a.taken } := by
  subst hram
  obtain ⟨htook, hfree⟩ := h.took.take ht
  have hsame : ∀ j < k, Function.update a.argv k p j = a.argv j := fun j hj =>
    Function.update_of_ne hj.ne p a.argv
  constructor
  · exact htook.write hfree
  · intro j hj
    dsimp only
    rcases Nat.lt_succ_iff_lt_or_eq.mp hj with hlt | rfl
    · rw [hsame j hlt]
      exact h.pages j hlt
    · rw [Function.update_self]
      exact ⟨hp, hw.isPage p hfree⟩
  · intro j hj hlt
    dsimp only
    rw [Function.update_of_ne (by omega)]
    exact h.rest j (by omega) hlt
  · dsimp only
    rw [List.range_succ, List.map_append, List.reverse_append, h.taken, List.map_singleton,
      Function.update_self, List.reverse_singleton, List.singleton_append]
    refine congrArg (p :: ·) (congrArg List.reverse (List.map_congr_left fun j hj => ?_))
    exact (hsame j (List.mem_range.mp hj)).symm
  · exact h.released
  · intro j hj
    rcases List.mem_cons.mp hj with rfl | hj
    · exact .inr (Nat.le_succ j)
    · exact (h.touched j hj).imp_right Nat.le_succ_of_le

end Gathered

namespace ArgM

open Logged

@[simp] theorem exec_setArgv : (setArgv i p).exec a = (.ok (), { a with
    argv := Function.update a.argv i p
    touched := i :: a.touched }) := rfl

@[simp] theorem exec_getArgv :
    (getArgv i).exec a = (.ok (a.argv i), { a with touched := i :: a.touched }) := rfl

theorem exec_takePage_of_nil (h : a.ram.alloc = (0, a.ram)) : takePage.exec a = (.ok 0, a) := by
  have hrun : takePage.exec a = (.ok a.ram.alloc.1, { a with
      ram := a.ram.alloc.2
      taken := if a.ram.alloc.1 = 0 then a.taken else a.ram.alloc.1 :: a.taken }) := rfl
  rw [hrun, h]
  rfl

theorem exec_takePage {ram : MemAllocator} (h : a.ram.alloc = (p, ram)) (hp : p ≠ 0) :
    takePage.exec a = (.ok p, { a with ram := ram, taken := p :: a.taken }) := by
  have hrun : takePage.exec a = (.ok a.ram.alloc.1, { a with
      ram := a.ram.alloc.2
      taken := if a.ram.alloc.1 = 0 then a.taken else a.ram.alloc.1 :: a.taken }) := rfl
  rw [hrun, h]
  dsimp only
  rw [if_neg hp]

theorem exec_fetchString {r : ℤ} {buf : ByteMem}
    (h : t.fetchstr a.ram addr (fun j => a.ram.mem (p + j)) pgSize = .ok (r, buf)) :
    (fetchString t addr p).exec a =
      (.ok r, { a with ram := { a.ram with mem := a.ram.mem.blit p pgSize buf } }) := by
  unfold fetchString
  rw [exec_get_bind, exec_bind_of_ok (by rw [exec_ofExcept, h])]
  rfl

/-- What a turn of the loop of `sys_exec` does: it stops with the pages of before, takes a page and
stops there, or takes a page and goes on. -/
theorem gather_turn (hs : Space s t.pagetable) (hw : s.WellFormed) (h : Gathered s i a)
    (uargv n : ℕ) :
    (∃ done a', (gather t uargv (n + 1) i).exec a = (.ok done, a') ∧ Gathered s i a' ∧
      (done = true → i ∈ a'.touched) ∧ (i < maxArg → ¬t.CanTake s uargv i)) ∨
    (∃ a', (gather t uargv (n + 1) i).exec a = (.ok false, a') ∧ Gathered s (i + 1) a' ∧
      (i < maxArg → (t.CanTake s uargv i ↔ i + 1 = maxArg))) ∨
    (∃ a', (gather t uargv (n + 1) i).exec a = (gather t uargv n (i + 1)).exec a' ∧
      Gathered s (i + 1) a' ∧ t.CanTake s uargv i) := by
  have huser := h.took.sameUser hs hw
  obtain ⟨o, harg⟩ := t.execArg_total s uargv i
  have hfetch : (Logged.ofExcept (t.execArg a.ram uargv i) : ArgM _).exec a = (.ok o, a) := by
    rw [exec_ofExcept, huser.execArg, harg]
  have hlen : a.ram.freeList.length = s.freeList.length - i := by
    rw [h.took.freeList, List.length_drop]
  rw [gather, exec_get_bind, exec_bind_of_ok hfetch]
  cases o with
  | none =>
    left
    refine ⟨false, a, rfl, h, by simp, fun _ => ?_⟩
    rintro ⟨-, q, -, hq, -⟩
    rw [harg] at hq
    cases hq
  | some uarg =>
    dsimp only
    by_cases hnull : uarg = 0
    · left
      rw [if_pos hnull]
      refine ⟨true, _, rfl, h.null, fun _ => List.mem_cons_self, fun _ => ?_⟩
      rintro ⟨-, q, hq₀, hq, -⟩
      rw [harg] at hq
      cases hq
      exact hq₀ hnull
    · rw [if_neg hnull]
      rcases alloc_cases (h.took.wellFormed hw) with ⟨hnil, halloc⟩ | ⟨p, ram, halloc, hp, ht⟩
      · left
        rw [exec_bind_of_ok (exec_takePage_of_nil halloc), exec_bind_of_ok exec_setArgv, if_pos rfl]
        refine ⟨false, _, rfl, h.null, by simp, fun _ => ?_⟩
        rintro ⟨hfew, -⟩
        rw [hnil, List.length_nil] at hlen
        omega
      · right
        have hroom : i < s.freeList.length := by
          rw [ht.freeList, List.length_cons] at hlen
          omega
        obtain ⟨r, buf, hstr, hr⟩ := t.fetchstr_page ram uarg fun j => ram.mem (p + j)
        have huser' := (h.took.take ht).1.sameUser hs hw
        simp only [huser'.nulAt] at hr
        have hread : (fetchString t uarg p).exec { a with
            ram := ram
            argv := Function.update a.argv i p
            touched := i :: a.touched
            taken := p :: a.taken } = _ := exec_fetchString hstr
        rw [exec_bind_of_ok (exec_takePage halloc hp), exec_bind_of_ok exec_setArgv, if_neg hp,
          exec_bind_of_ok hread]
        have hpage := h.page hw hp ht (rfl : { ram with mem := ram.mem.blit p pgSize buf } = _)
        by_cases hneg : r < 0
        · left
          rw [if_pos hneg]
          refine ⟨_, rfl, hpage, fun hi => ?_⟩
          constructor
          · rintro ⟨-, q, -, hq, hend⟩
            rw [harg] at hq
            cases hq
            by_contra hne
            exact absurd (hr.mpr (hend (by omega))) (not_le.mpr hneg)
          · intro hlast
            exact ⟨hroom, uarg, hnull, harg, fun hlt => absurd hlt (by omega)⟩
        · right
          rw [if_neg hneg]
          exact ⟨_, rfl, hpage, hroom, uarg, hnull, harg, fun _ => hr.mp (not_lt.mp hneg)⟩

/-- The loop of `sys_exec` takes pages one after the other. It takes as many as `argv` has places
exactly when there is something to take in each turn. -/
theorem gather_run (hs : Space s t.pagetable) (hw : s.WellFormed) (h : Gathered s i a)
    (uargv : ℕ) (hn : i + n = maxArg + 1) :
    ∃ done a' k, (gather t uargv n i).exec a = (.ok done, a') ∧ Gathered s k a' ∧
      (done = true → k ∈ a'.touched) ∧ k ≤ maxArg + 1 ∧
      (maxArg ≤ k ↔ ∀ j, i ≤ j → j < maxArg → t.CanTake s uargv j) := by
  induction n generalizing i a with
  | zero =>
    exact ⟨false, a, i, rfl, h, by simp, by omega, iff_of_true (by omega) fun j hj hj' => by omega⟩
  | succ n ih =>
    rcases gather_turn hs hw h uargv n with
      ⟨done, a', hrun, hg, hdone, hcan⟩ | ⟨a', hrun, hg, hcan⟩ | ⟨a', hrun, hg, hcan⟩
    · refine ⟨done, a', i, hrun, hg, hdone, by omega, fun hi j hj hj' => by omega, fun hall => ?_⟩
      by_contra hlt
      exact hcan (not_le.mp hlt) (hall i le_rfl (not_le.mp hlt))
    · refine ⟨false, a', i + 1, hrun, hg, by simp, by omega, fun hi j hj hj' => ?_, fun hall => ?_⟩
      · obtain rfl : j = i := by omega
        exact (hcan hj').mpr (by omega)
      · by_contra hlt
        have := (hcan (by omega)).mp (hall i le_rfl (by omega))
        omega
    · obtain ⟨done, a'', k, hrun', hg', hdone, hk, hiff⟩ := ih hg (by omega)
      refine ⟨done, a'', k, hrun.trans hrun', hg', hdone, hk, hiff.trans ⟨fun hall j hj hj' => ?_,
        fun hall j hj hj' => hall j (by omega) hj'⟩⟩
      rcases Nat.eq_or_lt_of_le hj with rfl | hlt
      · exact hcan
      · exact hall j hlt hj'

section Release

theorem exec_releaseArgs_null (h : a.argv i = 0) : (releaseArgs (n + 1) i).exec a =
    (.ok (), { a with touched := i :: a.touched }) := by
  rw [releaseArgs, exec_bind_of_ok exec_getArgv, if_neg (not_not.mpr h)]
  rfl

/-- A page that is given back, and the rest of the loop; a page that is none stops it. -/
theorem exec_releaseArgs_page (h : a.argv i ≠ 0) :
    (∃ e, a.ram.free (a.argv i) = .error e ∧ (releaseArgs (n + 1) i).exec a =
      (.error e, { a with touched := i :: a.touched })) ∨
    ∃ ram, a.ram.free (a.argv i) = .ok ram ∧ (releaseArgs (n + 1) i).exec a =
      (releaseArgs n (i + 1)).exec { a with
        ram := ram
        touched := i :: a.touched
        released := a.argv i :: a.released } := by
  rw [releaseArgs, exec_bind_of_ok exec_getArgv, if_pos h]
  cases hfree : a.ram.free (a.argv i) with
  | error e =>
    refine .inl ⟨e, rfl, exec_bind_of_error ?_⟩
    unfold releasePage
    rw [exec_get_bind]
    exact exec_bind_of_error (by rw [exec_ofExcept, hfree])
  | ok ram =>
    refine .inr ⟨ram, rfl, exec_bind_of_ok (a := ()) ?_⟩
    unfold releasePage
    rw [exec_get_bind, exec_bind_of_ok (by rw [exec_ofExcept, hfree])]
    rfl

/-- The loop that frees the strings stops at the first null pointer. If it gets there, the pages in
front of it have been given back. -/
theorem releaseArgs_stops (hne : ∀ j, i ≤ j → j < k → a.argv j ≠ 0) (hz : a.argv k = 0)
    (hik : i ≤ k) (hn : k < i + n) :
    ∃ r a', (releaseArgs n i).exec a = (r, a') ∧ (∀ j ∈ a'.touched, j ∈ a.touched ∨ j ≤ k) ∧
      a'.taken = a.taken ∧ ∀ v, r = .ok v →
        a'.released = ((List.range' i (k - i)).map a.argv).reverse ++ a.released := by
  induction n generalizing i a with
  | zero => omega
  | succ n ih =>
    rcases Nat.eq_or_lt_of_le hik with rfl | hlt
    · refine ⟨_, _, exec_releaseArgs_null hz, fun j hj => ?_, rfl, fun _ _ => ?_⟩
      · exact (List.mem_cons.mp hj).symm.imp_right Eq.le
      · rw [Nat.sub_self]
        rfl
    · rcases exec_releaseArgs_page (n := n) (hne i le_rfl hlt) with ⟨e, -, hrun⟩ | ⟨ram, -, hrun⟩
      · refine ⟨_, _, hrun, fun j hj => ?_, rfl, fun v hv => nomatch hv⟩
        exact (List.mem_cons.mp hj).symm.imp_right fun (hj : j = i) => hj.le.trans hik
      · obtain ⟨r, a', hrest, htouched, htaken, hreleased⟩ := ih (i := i + 1) (a := { a with
            ram := ram
            touched := i :: a.touched
            released := a.argv i :: a.released }) (fun j hj => hne j (by omega)) hz hlt (by omega)
        refine ⟨r, a', hrun.trans hrest, fun j hj => ?_, htaken, fun v hv => ?_⟩
        · rcases htouched j hj with hj | hj
          · exact (List.mem_cons.mp hj).symm.imp_right fun (hj : j = i) => hj.le.trans hik
          · exact .inr hj
        · rw [hreleased v hv, show k - i = k - (i + 1) + 1 by omega, List.range'_succ,
            List.map_cons, List.reverse_cons, List.append_assoc, List.singleton_append]

def Notes (a a' : ArgState) : Prop := ∀ j ∈ a.touched, j ∈ a'.touched

theorem steps_releaseArgs : Steps Notes (releaseArgs n i) := by
  have hrefl : ∀ a, Notes a a := fun _ _ hj => hj
  have htrans : ∀ a a' a'', Notes a a' → Notes a' a'' → Notes a a'' :=
    fun _ _ _ h h' j hj => h' j (h j hj)
  induction n generalizing i with
  | zero => exact Steps.pure hrefl ()
  | succ n ih =>
    have hread : Steps Notes (getArgv i) := fun a j hj => List.mem_cons_of_mem i hj
    have hrelease : ∀ p, Steps Notes (releasePage p) := by
      intro p a
      unfold releasePage
      rw [exec_get_bind, exec_bind, exec_ofExcept]
      cases a.ram.free p <;> exact hrefl a
    rw [releaseArgs]
    apply Steps.bind htrans hread
    intro p
    split
    · exact Steps.bind htrans (hrelease p) fun _ => ih
    · exact Steps.pure hrefl ()

theorem releaseArgs_reads (hpage : ∀ j, i ≤ j → j < k → a.argv j ≠ 0 ∧ a.ram.IsPage (a.argv j))
    (hik : i ≤ k) (hn : k < i + n) : k ∈ ((releaseArgs n i).exec a).2.touched := by
  induction n generalizing i a with
  | zero => omega
  | succ n ih =>
    rcases Nat.eq_or_lt_of_le hik with rfl | hlt
    · have hread : i ∈ ({ a with touched := i :: a.touched } : ArgState).touched :=
        List.mem_cons_self
      by_cases hz : a.argv i = 0
      · rw [exec_releaseArgs_null hz]
        exact hread
      · rcases exec_releaseArgs_page (n := n) hz with ⟨e, -, hrun⟩ | ⟨ram, -, hrun⟩
        · rw [hrun]
          exact hread
        · rw [hrun]
          exact steps_releaseArgs _ i hread
    · obtain ⟨hne, hp⟩ := hpage i le_rfl hlt
      rcases exec_releaseArgs_page (n := n) hne with ⟨e, herr, -⟩ | ⟨ram, hfree, hrun⟩
      · rw [hp.free_eq] at herr
        cases herr
      · rw [hp.free_eq] at hfree
        cases hfree
        rw [hrun]
        refine ih (fun j hj hlt => ?_) hlt (by omega)
        obtain ⟨hj₀, hj⟩ := hpage j (by omega) hlt
        exact ⟨hj₀, hj.of_kend rfl⟩

end Release

end ArgM

end StartOS
