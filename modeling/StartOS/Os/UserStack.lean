import Mathlib.Data.List.GetD
import Mathlib.Tactic.IntervalCases
import StartOS.Os.CopyOut
import StartOS.Os.ExecFailure
import StartOS.Os.FreeTable
import StartOS.Os.Ownership

/-! # The stack of a new program

`exec` writes the strings of `argv` and `env` to the stack page, then the vectors
of their addresses with the auxiliary vector behind them, and the number of
arguments below. `CopyString2Stack` takes its place in `ustack` for the place in
the array of strings as well, so it starts in the middle of `env`.
-/

namespace StartOS

open MemAllocator Hoare

variable {s s' : MemAllocator} {root va sp base : ℕ} {elf : ElfHdr}

def envStrings : List (List UInt8) :=
  (List.range 13).map fun i => (envAt (fun _ => none) i).getD []

namespace MemAllocator

def WordAt (s : MemAllocator) (root va w : ℕ) : Prop :=
  ∀ j < 8, s.userByte root (va + j) = some (UInt8.ofNat (w / 256 ^ j))

def WordsAt (s : MemAllocator) (root va : ℕ) (ws : List ℕ) : Prop :=
  ∀ i < ws.length, s.WordAt root (va + 8 * i) (ws.getD i 0)

def StringAt (s : MemAllocator) (root va : ℕ) (str : List UInt8) : Prop :=
  ∀ j ≤ str.length, s.userByte root (va + j) = some (str.getD j 0)

/-- The stack a program expects: the number of arguments, their addresses, a null word, the
addresses of the environment, a null word and the auxiliary vector; the strings are in the stack
page at `base` and do not overlap. -/
def IsUserStack (s : MemAllocator) (root base sp : ℕ) (argv : List (List UInt8)) (elf : ElfHdr) :
    Prop :=
  ∃ (args envs : List ℕ) (filename : ℕ), args.length = argv.length ∧
    envs.length = envStrings.length ∧
    s.WordsAt root sp (argv.length :: (args ++ 0 :: (envs ++ 0 :: auxv elf filename))) ∧
    (∀ a ∈ (args ++ envs).zip (argv ++ envStrings), s.StringAt root a.1 a.2 ∧ base ≤ a.1 ∧
      a.1 + a.2.length < base + pgSize) ∧
    ((args ++ envs).zip (argv ++ envStrings)).Pairwise fun a b =>
      a.1 + a.2.length < b.1 ∨ b.1 + b.2.length < a.1

end MemAllocator

namespace BinProgram

variable {b b' : BinProgram} {strs : ℕ → Option (List UInt8)} {c : ℤ}

/-- The loop of `CopyString2Stack` stops at a null pointer or gives up. -/
theorem copyStrings_spec {fuel i : ℕ} (hrun : copyStrings strs fuel i b s = .ok (c, b', s'))
    (h : Space s b.pagetable) (hw : s.WellFormed) :
    Writes s s' b.pagetable ∧ b'.pagetable = b.pagetable ∧
      ((c = -1 ∧ b'.stackTop = b.stackTop) ∨ ∃ k, i ≤ k ∧ k ≤ maxArg ∧
        (∀ j, i ≤ j → j < k → strs j ≠ none) ∧ strs k = none ∧ c = (k : ℤ) - b.stackTop ∧
          b'.stackTop = k + 1) := by
  induction fuel generalizing i b s with
  | zero => cases hrun
  | succ fuel ih =>
    rw [copyStrings] at hrun
    cases hstr : strs i with
    | none =>
      rw [hstr] at hrun
      dsimp only at hrun
      split at hrun
      · cases hrun
      · rename_i hi
        cases hrun
        exact ⟨.refl h hw, rfl, .inr ⟨i, le_rfl, by omega, fun j h₁ h₂ => by omega, hstr, rfl, rfl⟩⟩
    | some str =>
      rw [hstr] at hrun
      dsimp only at hrun
      split at hrun
      · cases hrun
        exact ⟨.refl h hw, rfl, .inl ⟨rfl, rfl⟩⟩
      split at hrun
      · cases hrun
        exact ⟨.refl h hw, rfl, .inl ⟨rfl, rfl⟩⟩
      obtain ⟨⟨r, s₁⟩, hcopy, hrest⟩ := Kernel.bind_ok.mp hrun
      obtain ⟨r', s₁', hcopy', hwr, -⟩ := h.copyout (cstring str)
        (push b.sp (str.length + 1)) (str.length + 1) hw
      rw [hcopy'] at hcopy
      cases hcopy
      split at hrest
      · cases hrest
        exact ⟨hwr, rfl, .inl ⟨rfl, rfl⟩⟩
      · obtain ⟨hwr', hpage, hres⟩ := ih hrest hwr.acts.space hwr.acts.moves.wf
        refine ⟨hwr.trans hwr', hpage, hres.imp_right ?_⟩
        rintro ⟨k, hik, hk, hsome, hnone, hc, htop⟩
        refine ⟨k, by omega, hk, fun j h₁ h₂ => ?_, hnone, hc, htop⟩
        by_cases hj : j = i
        · rw [hj, hstr]
          exact Option.some_ne_none str
        · exact hsome j (by omega) h₂

/-- The words fit in `ustack` or the kernel stack is overwritten. -/
theorem storeWords_spec {ws : List ℕ} {index : ℕ} (hrun : storeWords ws index b = .ok b') :
    (ws ≠ [] → index + ws.length ≤ maxArg + 1) ∧ b'.sp = b.sp ∧ b'.pagetable = b.pagetable ∧
      ∀ i < ws.length, b'.ustack (index + i) = ws.getD i 0 := by
  have hkeep : ∀ (ws : List ℕ) (index : ℕ) (b b' : BinProgram), storeWords ws index b = .ok b' →
      ∀ j < index, b'.ustack j = b.ustack j := by
    intro ws
    induction ws with
    | nil =>
      intro index b b' h j hj
      cases h
      rfl
    | cons w ws ih =>
      intro index b b' h j hj
      rw [storeWords] at h
      split at h
      · cases h
      · rw [ih _ _ _ h j (by omega)]
        exact Function.update_of_ne (by omega) _ _
  induction ws generalizing index b with
  | nil =>
    cases hrun
    exact ⟨fun h => absurd rfl h, rfl, rfl, fun i hi => absurd hi (Nat.not_lt_zero i)⟩
  | cons w ws ih =>
    rw [storeWords] at hrun
    split at hrun
    · cases hrun
    rename_i hindex
    obtain ⟨hlen, hsp, hpage, hword⟩ := ih hrun
    refine ⟨fun _ => ?_, hsp, hpage, fun i hi => ?_⟩
    · rw [List.length_cons]
      by_cases hnil : ws = []
      · rw [hnil, List.length_nil]
        omega
      · have := hlen hnil
        omega
    · cases i with
      | zero =>
        rw [Nat.add_zero, hkeep _ _ _ _ hrun _ (Nat.lt_succ_self _)]
        exact Function.update_self ..
      | succ i =>
        rw [show index + (i + 1) = index + 1 + i by omega,
          hword i (Nat.lt_of_succ_lt_succ hi)]
        rfl

end BinProgram

theorem BinProgram.copyString_total (b : BinProgram) (str : List UInt8) (h : Space s b.pagetable)
    (hw : s.WellFormed) : ∃ a b' s', b.copyString str s = .ok (a, b', s') ∧
      Writes s s' b.pagetable ∧ b'.pagetable = b.pagetable := by
  unfold copyString
  obtain ⟨r, s', hcopy, hwr, -⟩ := h.copyout (cstring str) (push b.sp (str.length + 1))
    (str.length + 1) hw
  dsimp only
  rw [hcopy]
  exact ⟨_, _, s', rfl, hwr, rfl⟩

theorem MemAllocator.lt_of_loaded (h : ¬s.Unloaded root va) : va < maxVa := by
  by_contra hge
  exact h fun hc => absurd hc hge

theorem auxv_length (elf : ElfHdr) (filename : ℕ) : (auxv elf filename).length = 42 := rfl

/-- `CreateUserStack` leaves the vectors on the stack, or a page is missing. -/
theorem createUserStack_spec {b b' : BinProgram} {argc envc : ℤ}
    (hrun : createUserStack elf argc envc b s = .ok (b', s')) (h : Space s b.pagetable)
    (hw : s.WellFormed) :
    Writes s s' b.pagetable ∧ (argc + envc + 2).toNat + 42 ≤ maxArg + 1 ∧
      ((∃ va, b'.sp ≤ va ∧ va < b'.sp + 8 * ((argc + envc + 2).toNat + 42) ∧
          s'.Unloaded b.pagetable va) ∨
        (s'.WordAt b.pagetable b'.sp (toU64 argc) ∧ ∃ filename, ∀ i < 42,
          s'.WordAt b.pagetable (b'.sp + 8 * (1 + (argc + envc + 2).toNat + i))
            ((auxv elf filename).getD i 0))) := by
  rw [createUserStack] at hrun
  obtain ⟨index, hindex⟩ : ∃ index, index = (argc + envc + 2).toNat := ⟨_, rfl⟩
  rw [← hindex] at hrun ⊢
  obtain ⟨⟨filename, b₁, s₁⟩, hname, hrun⟩ := Kernel.bind_ok.mp hrun
  obtain ⟨hwr₁, hpage₁⟩ : Writes s s₁ b.pagetable ∧ b₁.pagetable = b.pagetable := by
    obtain ⟨a, b₁', s₁', hname', hwr, hpage⟩ := b.copyString_total _ h hw
    rw [hname'] at hname
    cases hname
    exact ⟨hwr, hpage⟩
  obtain ⟨b₂, hstore, hrun⟩ := Kernel.bind_ok.mp hrun
  obtain ⟨hlen, -, hpage₂, hword⟩ := BinProgram.storeWords_spec hstore
  rw [auxv_length] at hlen hword
  have hpage : b₂.pagetable = b.pagetable := hpage₂.trans hpage₁
  have h₁ := hwr₁.acts.space
  have hw₁ := hwr₁.acts.moves.wf
  obtain ⟨sp₁, hsp₁⟩ : ∃ sp₁, sp₁ = (b₂.sp + 2 ^ 64 - 8 * (index + 42)) % 2 ^ 64 := ⟨_, rfl⟩
  rw [auxv_length] at hrun
  dsimp only at hrun
  rw [← hsp₁, hpage] at hrun
  obtain ⟨r₁, s₂, hcopy₁, hwr₂, hres₁⟩ := h₁.copyout (wordBytes b₂.ustack) sp₁
    (8 * (index + 42)) hw₁
  rw [hcopy₁] at hrun
  simp only [Kernel.ok_bind] at hrun
  have hfit : index + 42 ≤ maxArg + 1 := hlen (List.cons_ne_nil _ _)
  rcases hres₁ with ⟨rfl, hloaded₁, hbyte₁⟩ | ⟨rfl, va, hlo, hhi, hun⟩
  · rw [if_neg (by decide)] at hrun
    obtain ⟨sp₂, hsp₂⟩ : ∃ sp₂, sp₂ = (sp₁ + 2 ^ 64 - 8) % 2 ^ 64 := ⟨_, rfl⟩
    obtain ⟨r₂, s₃, hcopy₂, hwr₃, hres₂⟩ := hwr₂.acts.space.copyout
      (wordBytes fun _ => toU64 argc) sp₂ 8 hwr₂.acts.moves.wf
    rw [← hsp₂, hcopy₂] at hrun
    cases hrun
    refine ⟨hwr₁.trans (hwr₂.trans hwr₃), hfit, ?_⟩
    dsimp only
    rcases hres₂ with ⟨rfl, hloaded₂, hbyte₂⟩ | ⟨rfl, va, hlo, hhi, hun⟩
    · have hlow : ∀ va, sp₂ ≤ va → va < sp₂ + 8 → va < maxVa := fun va h₁ h₂ =>
        lt_of_loaded (hloaded₂ va h₁ h₂)
      have hnext : sp₁ = sp₂ + 8 := by
        have := hlow sp₂ le_rfl (by omega)
        have hmax : maxVa = 274877906944 := by decide
        omega
      refine .inr ⟨fun j hj => ?_, filename, fun i hi j hj => ?_⟩
      · rw [hbyte₂ _ (hlow _ (by omega) (by omega)), if_pos (by omega),
          show sp₂ + j - sp₂ = j by omega, wordBytes, Nat.mod_eq_of_lt hj]
      · have hat : sp₁ ≤ sp₂ + 8 * (1 + index + i) + j ∧
            sp₂ + 8 * (1 + index + i) + j < sp₁ + 8 * (index + 42) := by omega
        have hlt := lt_of_loaded (hloaded₁ _ hat.1 hat.2)
        have hdiv : (8 * (index + i) + j) / 8 = index + i := by omega
        have hmod : (8 * (index + i) + j) % 8 = j := by omega
        rw [hbyte₂ _ hlt, if_neg (by omega), hbyte₁ _ hlt, if_pos hat,
          show sp₂ + 8 * (1 + index + i) + j - sp₁ = 8 * (index + i) + j by omega, wordBytes, hdiv,
          hmod, hword i hi]
    · exact .inl ⟨va, hlo, by omega, hwr₃.unloaded.mpr hun⟩
  · rw [if_pos (by decide)] at hrun
    cases hrun
    exact ⟨hwr₁.trans hwr₂, hfit, .inl ⟨va, hlo, hhi, hwr₂.unloaded.mpr hun⟩⟩

theorem envStrings_length : envStrings.length = 13 := rfl

theorem env_stop {behind : ℕ → Option (List UInt8)} {i k : ℕ} (hi : i ≤ 13) (hik : i ≤ k)
    (hsome : ∀ j, i ≤ j → j < k → envAt behind j ≠ none) (hnone : envAt behind k = none) :
    k = 13 := by
  have hlast : envAt behind 13 = none := rfl
  have hle : k ≤ 13 := by
    by_contra hgt
    exact hsome 13 hi (by omega) hlast
  by_contra hne
  have hlt : k < 13 := by omega
  interval_cases k <;> cases hnone

/-- The words of the auxiliary vector are where the program expects them only if it begins where
the program expects it. -/
theorem auxv_shift {f f' : ℕ} {i : ℕ} (h₁ : 1 ≤ i) (h₂ : i ≤ 14)
    (h : UInt8.ofNat ((auxv elf f).getD i 0) = UInt8.ofNat ((auxv elf f').getD 0 0)) :
    UInt8.ofNat ((auxv elf f).getD (i + 1) 0) ≠ UInt8.ofNat ((auxv elf f').getD 1 0) := by
  -- only the word for `AT_PHDR` can look like the first one, and a 4 follows it
  by_cases hphdr : i = 13
  · subst hphdr
    change UInt8.ofNat 4 ≠ UInt8.ofNat 0
    decide
  · interval_cases i <;> simp [auxv] at h hphdr

/-- The stack that `exec` builds is never the one a program expects: the first strings of `env`
are left out, and the auxiliary vector begins too early. -/
theorem fillStack_never {argv : List (List UInt8)} {behind : ℕ → Option (List UInt8)}
    {b : BinProgram} (hrun : fillStack elf (fun i => argv[i]?) behind b s = .ok (sp, s'))
    (h : Space s b.pagetable) (hw : s.WellFormed) (htop : b.stackTop = 0)
    (hlen : argv.length ≤ maxArg) :
    Writes s s' b.pagetable ∧ ¬s'.IsUserStack b.pagetable base sp argv elf := by
  rw [fillStack] at hrun
  obtain ⟨⟨argc, b₁, s₁⟩, hargs, hrun⟩ := Kernel.bind_ok.mp hrun
  obtain ⟨⟨envc, b₂, s₂⟩, henvs, hrun⟩ := Kernel.bind_ok.mp hrun
  obtain ⟨⟨b₃, s₃⟩, hcreate, hret⟩ := Kernel.bind_ok.mp hrun
  cases hret
  obtain ⟨hwr₁, hpage₁, hres₁⟩ := BinProgram.copyStrings_spec hargs h hw
  have h₁ : Space s₁ b₁.pagetable := hpage₁ ▸ hwr₁.acts.space
  obtain ⟨hwr₂, hpage₂, hres₂⟩ := BinProgram.copyStrings_spec henvs h₁ hwr₁.acts.moves.wf
  have h₂ : Space s₂ b₂.pagetable := hpage₂ ▸ hwr₂.acts.space
  obtain ⟨hwr₃, hfit, hstack⟩ := createUserStack_spec hcreate h₂ hwr₂.acts.moves.wf
  have hpage : b₂.pagetable = b.pagetable := hpage₂.trans hpage₁
  rw [hpage] at hwr₃ hstack
  rw [hpage₁] at hwr₂
  refine ⟨hwr₁.trans (hwr₂.trans hwr₃), ?_⟩
  rintro ⟨args, envs, filename, hargsLen, henvsLen, hwords, -, -⟩
  rw [envStrings_length] at henvsLen
  have hmax : maxArg = 64 := rfl
  obtain ⟨m, hm⟩ : ∃ m, m = (argc + envc + 2).toNat := ⟨_, rfl⟩
  have hcount : (argc = argv.length ∧ argv.length + 1 ≤ m ∧ m ≤ argv.length + 14) ∨
      (argc = -1 ∧ m ≤ 14) := by
    clear hwords hstack
    rcases hres₁ with ⟨hargc, htop₁⟩ | ⟨k₁, -, -, hsome₁, hnone₁, hargc, htop₁⟩
    · right
      refine ⟨hargc, ?_⟩
      rcases hres₂ with ⟨henvc, -⟩ | ⟨k₂, hk₂, -, hsome₂, hnone₂, henvc, -⟩
      · omega
      · have := env_stop (by omega) hk₂ hsome₂ hnone₂
        omega
    · left
      have hk₁ : k₁ = argv.length := by
        have hge : argv.length ≤ k₁ := List.getElem?_eq_none_iff.mp hnone₁
        by_contra hne
        exact hsome₁ argv.length (by omega) (by omega) (List.getElem?_eq_none le_rfl)
      rcases hres₂ with ⟨henvc, -⟩ | ⟨k₂, hk₂, -, hsome₂, hnone₂, henvc, -⟩
      · omega
      · by_cases hin : b₁.stackTop ≤ 13
        · have := env_stop hin hk₂ hsome₂ hnone₂
          omega
        · omega
  rw [← hm] at hstack
  obtain ⟨L, hL⟩ : ∃ L, L = argv.length :: (args ++ 0 :: (envs ++ 0 :: auxv elf filename)) := ⟨_, rfl⟩
  rw [← hL] at hwords
  have hsplit : L = (argv.length :: (args ++ 0 :: (envs ++ [0]))) ++ auxv elf filename := by
    rw [hL]
    simp
  have hfront : (argv.length :: (args ++ 0 :: (envs ++ [0]))).length = argv.length + 16 := by
    simp only [List.length_cons, List.length_append, List.length_nil, hargsLen, henvsLen]
  have hLlen : L.length = argv.length + 58 := by
    rw [hsplit, List.length_append, hfront, auxv_length]
  have hLaux : ∀ j, L.getD (argv.length + 16 + j) 0 = (auxv elf filename).getD j 0 := by
    intro j
    rw [hsplit, List.getD_append_right _ _ _ _ (by omega), hfront,
      show argv.length + 16 + j - (argv.length + 16) = j by omega]
  rcases hstack with ⟨va, hlo, hhi, hun⟩ | ⟨hargc, filename', haux⟩
  · have hbyte := hwords ((va - b₃.sp) / 8) (by omega) ((va - b₃.sp) % 8) (by omega)
    rw [show b₃.sp + 8 * ((va - b₃.sp) / 8) + (va - b₃.sp) % 8 = va by omega, hun.userByte] at hbyte
    cases hbyte
  · rcases hcount with ⟨-, hlow, hhigh⟩ | ⟨rfl, -⟩
    · obtain ⟨i, hi⟩ : ∃ i, i = argv.length + 15 - m := ⟨_, rfl⟩
      have hword : ∀ j < 2, UInt8.ofNat ((auxv elf filename').getD (i + j) 0) =
          UInt8.ofNat ((auxv elf filename).getD j 0) := by
        intro j hj
        have hwant := hwords (argv.length + 16 + j) (by omega) 0 (by omega)
        have hhave := haux (i + j) (by omega) 0 (by omega)
        rw [show b₃.sp + 8 * (1 + m + (i + j)) + 0 = b₃.sp + 8 * (argv.length + 16 + j) + 0 by omega,
          hwant, hLaux, pow_zero, Nat.div_one, Nat.div_one] at hhave
        exact (Option.some.inj hhave).symm
      exact auxv_shift (by omega) (by omega) (hword 0 (by omega)) (hword 1 (by omega))
    · -- the arguments did not fit, and their number is -1
      have hwant := hwords 0 (by omega) 0 (by omega)
      have hhave := hargc 0 (by omega)
      rw [Nat.mul_zero, Nat.add_zero] at hwant
      rw [Nat.add_zero, hwant, pow_zero, Nat.div_one, Nat.div_one, hL] at hhave
      have hbyte : UInt8.ofNat argv.length = UInt8.ofNat (toU64 (-1)) := Option.some.inj hhave
      have hval := congrArg UInt8.toNat hbyte
      rw [UInt8.toNat_ofNat', UInt8.toNat_ofNat', show toU64 (-1) % 2 ^ 8 = 255 by decide] at hval
      omega

section Room

variable {b : BinProgram} {strs argv behind : ℕ → Option (List UInt8)}

/-- Where `CopyString2Stack` stops that starts with string `i` and the stack pointer `sp` in a stack
page at `base`, and the stack pointer at the end; no place if a string does not fit in the page.
There is no result if the null word would be stored behind `ustack`. -/
def stopOf (strs : ℕ → Option (List UInt8)) (base : ℕ) : ℕ → ℕ → ℕ → Option (Option ℕ × ℕ)
  | 0, _, _ => none
  | fuel + 1, i, sp =>
    match strs i with
    | none => if i > maxArg then none else some (some i, sp)
    | some str =>
      let next := BinProgram.push sp (str.length + 1)
      if i > maxArg then some (none, sp)
      else if base ≤ next ∧ next + (str.length + 1) ≤ base + pgSize then stopOf strs base fuel
        (i + 1) next
      else some (none, next)

/-- The number of words that `exec` stores in `ustack` for a stack page at `base`. -/
def stackWords (argv behind : ℕ → Option (List UInt8)) (base : ℕ) : Option ℕ :=
  (stopOf argv base (maxArg + 2) 0 (base + pgSize - 8)).bind fun args =>
    let top := args.1.elim 0 (· + 1)
    (stopOf (envAt behind) base (maxArg + 2) top args.2).map fun envs =>
      let argc : ℤ := args.1.elim (-1) fun k => k
      let envc : ℤ := envs.1.elim (-1) fun k => k - top
      (argc + envc + 2).toNat + 42

/-- The page at `base` is the only one that is loaded. -/
def MemAllocator.OnlyPage (s : MemAllocator) (root base : ℕ) : Prop :=
  ∀ va, ¬s.Unloaded root va ↔ base ≤ va ∧ va < base + pgSize

theorem MemAllocator.OnlyPage.unique {z z' : ℕ} (h : s.OnlyPage root z) (h' : s.OnlyPage root z') :
    z = z' := by
  have hpg : pgSize = 4096 := rfl
  have h₁ := (h' z).mp ((h z).mpr ⟨le_rfl, by omega⟩)
  have h₂ := (h z').mp ((h' z').mpr ⟨le_rfl, by omega⟩)
  omega

theorem MemAllocator.OnlyPage.congr {s s' : MemAllocator}
    (h : ∀ va, s'.leaf root va = s.leaf root va) :
    s'.OnlyPage root base ↔ s.OnlyPage root base := by
  apply forall_congr'
  intro va
  unfold Unloaded
  rw [userFrame_congr (h va)]

theorem MemAllocator.Writes.onlyPage {s s' : MemAllocator} (h : Writes s s' root)
    (ho : s.OnlyPage root base) : s'.OnlyPage root base :=
  (OnlyPage.congr h.leaf).mpr ho

theorem MemAllocator.OnlyPage.copyout (src : ByteMem) (dst : ℕ) {n : ℕ} (ho : s.OnlyPage root base)
    (h : Space s root) (hw : s.WellFormed) (hn : 0 < n) :
    ∃ r s', s.copyout root dst src n = .ok (r, s') ∧ Writes s s' root ∧
      (r = 0 ∨ r = -1) ∧ (r = 0 ↔ base ≤ dst ∧ dst + n ≤ base + pgSize) := by
  obtain ⟨r, s', hrun, hwr, hres⟩ := h.copyout src dst n hw
  refine ⟨r, s', hrun, hwr, hres.imp (fun h => h.1) fun h => h.1, ?_⟩
  rcases hres with ⟨rfl, hloaded, -⟩ | ⟨rfl, va, h₁, h₂, hun⟩
  · have hfirst := (ho dst).mp (hloaded dst le_rfl (by omega))
    have hlast := (ho (dst + n - 1)).mp (hloaded _ (by omega) (by omega))
    exact ⟨fun _ => ⟨hfirst.1, by omega⟩, fun _ => rfl⟩
  · constructor
    · intro hc
      cases hc
    intro hin
    exact absurd hun ((ho va).mpr (by omega))

theorem BinProgram.copyStrings_eq (strs : ℕ → Option (List UInt8)) (fuel i : ℕ)
    (ho : s.OnlyPage b.pagetable b.stackbase) (h : Space s b.pagetable) (hw : s.WellFormed) :
    (stopOf strs b.stackbase fuel i b.sp = none ∧ ∃ e, copyStrings strs fuel i b s = .error e) ∨
      ∃ stop sp, stopOf strs b.stackbase fuel i b.sp = some (stop, sp) ∧ ∃ b' s',
        copyStrings strs fuel i b s = .ok (stop.elim (-1) fun k => (k : ℤ) - b.stackTop, b', s') ∧
        Writes s s' b.pagetable ∧ b'.pagetable = b.pagetable ∧ b'.stackbase = b.stackbase ∧
        b'.sp = sp ∧ b'.stackTop = stop.elim b.stackTop (· + 1) := by
  induction fuel generalizing i b s with
  | zero => exact .inl ⟨rfl, _, rfl⟩
  | succ fuel ih =>
    rw [copyStrings, stopOf]
    cases hstr : strs i with
    | none =>
      dsimp only
      by_cases hi : i > maxArg
      · rw [if_pos hi, if_pos hi]
        exact .inl ⟨rfl, _, rfl⟩
      · rw [if_neg hi, if_neg hi]
        exact .inr ⟨some i, b.sp, rfl, _, s, rfl, .refl h hw, rfl, rfl, rfl, rfl⟩
    | some str =>
      dsimp only
      by_cases hi : i > maxArg
      · rw [if_pos hi, if_pos hi]
        exact .inr ⟨none, b.sp, rfl, b, s, rfl, .refl h hw, rfl, rfl, rfl, rfl⟩
      rw [if_neg hi, if_neg hi]
      obtain ⟨next, hnext⟩ : ∃ next, next = push b.sp (str.length + 1) := ⟨_, rfl⟩
      rw [← hnext]
      by_cases hlow : next < b.stackbase
      · rw [if_pos hlow, if_neg (by omega)]
        exact .inr ⟨none, next, rfl, _, s, rfl, .refl h hw, rfl, rfl, rfl, rfl⟩
      rw [if_neg hlow]
      obtain ⟨r, s₁, hcopy, hwr, hr, hin⟩ := ho.copyout (cstring str) next h hw
        (show 0 < str.length + 1 from Nat.succ_pos _)
      rw [hcopy]
      simp only [Kernel.ok_bind]
      rcases hr with rfl | rfl
      · rw [if_neg (show ¬(0 : ℤ) < 0 by decide), if_pos (hin.mp rfl)]
        rcases ih (i + 1) (b := { b with
          sp := next
          ustack := Function.update b.ustack i next }) (hwr.onlyPage ho)
          hwr.acts.space hwr.acts.moves.wf with hfail | ⟨stop, sp, hstop, b', s', hrun, hwr', hrest⟩
        · exact .inl hfail
        · exact .inr ⟨stop, sp, hstop, b', s', hrun, hwr.trans hwr', hrest⟩
      · rw [if_pos (show (-1 : ℤ) < 0 by decide), if_neg fun hc => by cases hin.mpr hc]
        exact .inr ⟨none, next, rfl, _, s₁, rfl, hwr, rfl, rfl, rfl, rfl⟩

theorem BinProgram.storeWords_total {ws : List ℕ} (index : ℕ) (b : BinProgram) (hws : ws ≠ []) :
    (index + ws.length ≤ maxArg + 1 ∧ ∃ b', storeWords ws index b = .ok b' ∧
        b'.pagetable = b.pagetable) ∨
      (maxArg + 1 < index + ws.length ∧ storeWords ws index b = .error .fault) := by
  induction ws generalizing index b with
  | nil => exact absurd rfl hws
  | cons w ws ih =>
    rw [storeWords, List.length_cons]
    by_cases hi : index > maxArg
    · rw [if_pos hi]
      exact .inr ⟨by omega, rfl⟩
    rw [if_neg hi]
    by_cases hnil : ws = []
    · subst hnil
      exact .inl ⟨by rw [List.length_nil]; omega, _, rfl, rfl⟩
    · rcases ih (index + 1) { b with ustack := Function.update b.ustack index w } hnil with
        ⟨hfit, b', hrun, hpage⟩ | ⟨hover, herr⟩
      · exact .inl ⟨by omega, b', hrun, hpage⟩
      · exact .inr ⟨by omega, herr⟩

theorem createUserStack_total (argc envc : ℤ) (h : Space s b.pagetable) (hw : s.WellFormed) :
    ((argc + envc + 2).toNat + 42 ≤ maxArg + 1 ∧
        ∃ b' s', createUserStack elf argc envc b s = .ok (b', s') ∧ Writes s s' b.pagetable ∧
          b'.sp < 2 ^ 64) ∨
      (maxArg + 1 < (argc + envc + 2).toNat + 42 ∧
        createUserStack elf argc envc b s = .error .fault) := by
  rw [createUserStack]
  obtain ⟨filename, b₁, s₁, hname, hwr, hpage₁⟩ :=
    b.copyString_total ("./busybox".toList.map fun ch =>
    UInt8.ofNat ch.toNat) h hw
  rw [hname]
  simp only [Kernel.ok_bind]
  have hne : auxv elf filename ≠ [] := List.cons_ne_nil _ _
  rcases b₁.storeWords_total (argc + envc + 2).toNat hne with
    ⟨hfit, b₂, hstore, hpage₂⟩ | ⟨hover, herr⟩
  · rw [auxv_length] at hfit
    rw [hstore, Kernel.ok_bind, auxv_length]
    have hpage : b₂.pagetable = b.pagetable := hpage₂.trans hpage₁
    rw [hpage]
    refine .inl ⟨hfit, ?_⟩
    obtain ⟨index, hindex⟩ : ∃ index, index = (argc + envc + 2).toNat + 42 := ⟨_, rfl⟩
    rw [← hindex]
    obtain ⟨r₁, s₂, hcopy₁, hwr₁, -⟩ := hwr.acts.space.copyout (wordBytes b₂.ustack)
      ((b₂.sp + 2 ^ 64 - 8 * index) % 2 ^ 64) (8 * index) hwr.acts.moves.wf
    rw [hcopy₁]
    simp only [Kernel.ok_bind]
    have hlt : ∀ n : ℕ, n % 2 ^ 64 < 2 ^ 64 := fun n => Nat.mod_lt n (Nat.two_pow_pos 64)
    split
    · exact ⟨_, _, rfl, hwr.trans hwr₁, hlt _⟩
    · obtain ⟨r₂, s₃, hcopy₂, hwr₂, -⟩ := hwr₁.acts.space.copyout (wordBytes fun _ => toU64 argc)
        (((b₂.sp + 2 ^ 64 - 8 * index) % 2 ^ 64 + 2 ^ 64 - 8) % 2 ^ 64) 8 hwr₁.acts.moves.wf
      rw [hcopy₂]
      exact ⟨_, _, rfl, hwr.trans (hwr₁.trans hwr₂), hlt _⟩
  · rw [auxv_length] at hover
    rw [herr]
    exact .inr ⟨hover, rfl⟩

theorem fillStack_writes (hrun : fillStack elf argv behind b s = .ok (sp, s'))
    (h : Space s b.pagetable) (hw : s.WellFormed) : Writes s s' b.pagetable ∧ sp < 2 ^ 64 := by
  rw [fillStack] at hrun
  obtain ⟨⟨argc, b₁, s₁⟩, hargs, hrun⟩ := Kernel.bind_ok.mp hrun
  obtain ⟨⟨envc, b₂, s₂⟩, henvs, hrun⟩ := Kernel.bind_ok.mp hrun
  obtain ⟨⟨b₃, s₃⟩, hcreate, hret⟩ := Kernel.bind_ok.mp hrun
  cases hret
  obtain ⟨hwr₁, hpage₁, -⟩ := BinProgram.copyStrings_spec hargs h hw
  have h₁ : Space s₁ b₁.pagetable := hpage₁ ▸ hwr₁.acts.space
  obtain ⟨hwr₂, hpage₂, -⟩ := BinProgram.copyStrings_spec henvs h₁ hwr₁.acts.moves.wf
  have h₂ : Space s₂ b₂.pagetable := hpage₂ ▸ hwr₂.acts.space
  rcases createUserStack_total argc envc h₂ hwr₂.acts.moves.wf with
    ⟨-, b₃', s₃', hcreate', hwr₃, hlt⟩ | ⟨-, herr⟩
  · have heq := hcreate.symm.trans hcreate'
    obtain ⟨rfl, rfl⟩ := Prod.mk.inj (Except.ok.inj heq)
    rw [hpage₂, hpage₁] at hwr₃
    rw [hpage₁] at hwr₂
    exact ⟨hwr₁.trans (hwr₂.trans hwr₃), hlt⟩
  · cases hcreate.symm.trans herr

theorem fillStack_total (elf : ElfHdr) (argv behind : ℕ → Option (List UInt8)) (junk : ℕ → ℕ)
    (ho : s.OnlyPage root base) (h : Space s root) (hw : s.WellFormed) :
    ((∃ n ≤ maxArg + 1, stackWords argv behind base = some n) ∧
        ∃ sp s', fillStack elf argv behind ⟨base + pgSize - 8, base, root, junk, 0⟩ s = .ok (sp, s') ∧
          Writes s s' root) ∨
      ((∀ n, stackWords argv behind base = some n → maxArg + 1 < n) ∧
        ∃ e, fillStack elf argv behind ⟨base + pgSize - 8, base, root, junk, 0⟩ s = .error e) := by
  unfold fillStack stackWords BinProgram.copyString2Stack
  rcases BinProgram.copyStrings_eq argv (maxArg + 2) 0
    (b := ⟨base + pgSize - 8, base, root, junk, 0⟩) ho h hw with
    ⟨hnone, e, herr⟩ | ⟨args, sp₁, hargs, b₁, s₁, hrun₁, hwr₁, hpage₁, hbase₁, hsp₁, htop₁⟩
  · right
    dsimp only at hnone ⊢
    rw [hnone, herr]
    refine ⟨fun n hn => ?_, e, ?_⟩
    · cases hn
    · rfl
  dsimp only at hargs hrun₁ hwr₁ hpage₁ hbase₁ htop₁ ⊢
  rw [hargs, hrun₁, Kernel.ok_bind, Option.bind_some]
  have ho₁ : s₁.OnlyPage b₁.pagetable b₁.stackbase := by
    rw [hpage₁, hbase₁]
    exact hwr₁.onlyPage ho
  have h₁ : Space s₁ b₁.pagetable := hpage₁ ▸ hwr₁.acts.space
  rcases BinProgram.copyStrings_eq (envAt behind) (maxArg + 2) b₁.stackTop ho₁ h₁
    hwr₁.acts.moves.wf with
    ⟨hnone, e, herr⟩ | ⟨envs, sp₂, henvs, b₂, s₂, hrun₂, hwr₂, hpage₂, -, -, -⟩
  · right
    rw [hbase₁, hsp₁, htop₁] at hnone
    rw [hnone, herr]
    refine ⟨fun n hn => ?_, e, ?_⟩
    · cases hn
    · rfl
  rw [hbase₁, hsp₁, htop₁] at henvs
  rw [henvs, hrun₂, Kernel.ok_bind, Option.map_some]
  have hpage : b₂.pagetable = root := hpage₂.trans hpage₁
  rw [hpage₁] at hwr₂
  have h₂ : Space s₂ b₂.pagetable := hpage ▸ hwr₂.acts.space
  obtain ⟨argc, hargc⟩ : ∃ argc : ℤ, argc = args.elim (-1) fun k => (k : ℤ) := ⟨_, rfl⟩
  obtain ⟨envc, henvc⟩ : ∃ envc : ℤ, envc = envs.elim (-1) fun k => (k : ℤ) - b₁.stackTop := ⟨_, rfl⟩
  have hargc' : (args.elim (-1) fun k => (k : ℤ) - (0 : ℕ)) = argc := by
    rw [hargc]
    simp only [Nat.cast_zero, sub_zero]
  have hwords : (args.elim (-1) (fun k => (k : ℤ)) + envs.elim (-1) (fun k => (k : ℤ) -
      (args.elim 0 (· + 1) : ℕ)) + 2).toNat + 42 = (argc + envc + 2).toNat + 42 := by
    rw [hargc, henvc, htop₁]
  rw [hargc', ← henvc]
  rcases createUserStack_total argc envc h₂ hwr₂.acts.moves.wf with
    ⟨hfit, b₃, s₃, hrun₃, hwr₃, -⟩ | ⟨hover, herr⟩
  · rw [hpage] at hwr₃
    refine .inl ⟨⟨_, hfit, congrArg some hwords⟩, b₃.sp, s₃, ?_, hwr₁.trans (hwr₂.trans hwr₃)⟩
    rw [hrun₃]
    rfl
  · refine .inr ⟨fun n hn => ?_, .fault, ?_⟩
    · have hn' := hwords.symm.trans (Option.some.inj hn)
      omega
    · rw [herr]
      rfl

end Room

end StartOS
