import Mathlib.Data.List.FinRange
import Mathlib.Data.List.MinMax
import Mathlib.Data.List.Sort
import Mathlib.Logic.Equiv.Basic
import StartOS.Os.WorkingDir

/-! # The file system of a path

`getFs` looks for the file system in `mountedFS` whose mount point is the longest
that matches the path. The test of its inner loop reads the path at the index of
the table, and a match need not end where a component of the path ends.
-/

theorem List.SortedLT.idxOf_le_iff {α : Type*} [LinearOrder α] {l : List α} (hl : l.SortedLT)
    {a b : α} (ha : a ∈ l) (hb : b ∈ l) : l.idxOf a ≤ l.idxOf b ↔ a ≤ b := by
  have ha' := List.idxOf_lt_length_of_mem ha
  have hb' := List.idxOf_lt_length_of_mem hb
  have h : l[l.idxOf a] ≤ l[l.idxOf b] ↔ l.idxOf a ≤ l.idxOf b := hl.getElem_le_getElem_iff
  rw [← h, List.getElem_idxOf, List.getElem_idxOf]

namespace StartOS

def nFileSystem : ℕ := 5

/-- A `FileSystem`: the address of the object and the string in its `mountPoint`. -/
@[ext] structure FileSystem where
  addr : ℕ
  mountPoint : List UInt8
  ne_nul : 0 ∉ mountPoint
deriving DecidableEq

/-- `mountedFS`. An object stands at one place of the table. -/
structure MountTable where
  slot : Fin nFileSystem → Option FileSystem
  apart : ∀ i j f g, slot i = some f → slot j = some g → f.addr = g.addr → i = j

/-- The inner loop of `getFs` for the file system at index `i`, from `mountPoint[j]` on. -/
def matchFrom (filepath : ByteMem) (i : ℕ) : List UInt8 → ℕ → Bool
  | [], _ => true
  | c :: cs, j =>
    -- the source has `filepath[i]` where `filepath[j]` is meant
    if filepath i = 0 then true
    else if c ≠ filepath j then false
    else matchFrom filepath i cs (j + 1)

namespace MountTable

/-- A turn of the outer loop of `getFs`, on `bestMatch` and `bestLength`. -/
def turn (t : MountTable) (filepath : ByteMem) (best : Fin nFileSystem × ℕ) (i : Fin nFileSystem) :
    Fin nFileSystem × ℕ :=
  match t.slot i with
  | none => best
  | some mp =>
    if matchFrom filepath i mp.mountPoint 0 ∧ mp.mountPoint.length > best.2 then
      (i, mp.mountPoint.length)
    else best

def getFs (t : MountTable) (filepath : ByteMem) : Option FileSystem :=
  t.slot ((List.finRange nFileSystem).foldl (t.turn filepath) (⟨0, by decide⟩, 0)).1

def empty : MountTable where
  slot _ := none
  apart := by simp

def rearrange (t : MountTable) (σ : Equiv.Perm (Fin nFileSystem)) : MountTable where
  slot i := t.slot (σ i)
  apart _ _ f g hf hg h := σ.injective (t.apart _ _ f g hf hg h)

@[simp] theorem rearrange_slot (t : MountTable) (σ : Equiv.Perm (Fin nFileSystem))
    (i : Fin nFileSystem) : (t.rearrange σ).slot i = t.slot (σ i) := rfl

def Fresh (t : MountTable) (obj : ℕ) : Prop := ∀ i f, t.slot i = some f → f.addr ≠ obj

/-- `mountedFS[i] = fs`. -/
def put (t : MountTable) (i : Fin nFileSystem) (fs : FileSystem) (h : t.Fresh fs.addr) :
    MountTable where
  slot := Function.update t.slot i (some fs)
  apart j k f g hf hg he := by
    rw [Function.update_apply] at hf hg
    split at hf <;> split at hg
    · simp [*]
    · cases hf
      exact absurd he.symm (h _ _ hg)
    · cases hg
      exact absurd he (h _ _ hf)
    · exact t.apart j k f g hf hg he

end MountTable

theorem nul_not_mem_absolutePath {curdir path : List UInt8} (h : 0 ∉ curdir ++ path) :
    0 ∉ absolutePath curdir path := by
  rw [List.mem_append, not_or] at h
  have hdrop : 0 ∉ path.drop 2 := fun h₀ => h.2 (List.mem_of_mem_drop h₀)
  unfold absolutePath
  split <;> dsimp only <;> split <;> simp [h, hdrop]

namespace MountTable

/-- `vfs::mount` of a file system that `createFileSystem` makes at the address `obj`. The path is
computed in a buffer of `MAXPATH` bytes. -/
def mount (t : MountTable) (curdir mountPoint : List UInt8) (obj : ℕ) (hobj : t.Fresh obj)
    (h₀ : 0 ∉ curdir ++ mountPoint) : Kernel MountTable :=
  if (absolutePath curdir mountPoint).length ≥ maxPath then .error .fault
  else
    match (List.finRange nFileSystem).find? fun i => t.slot i = none with
    | none => .error (.panic "mount file system")
    | some i =>
      .ok (t.put i ⟨obj, absolutePath curdir mountPoint, nul_not_mem_absolutePath h₀⟩ hobj)

/-- The path of `vfs::mkdirat`, from the current directory or from an open directory. -/
def mkdirPath (curdir : List UInt8) (dir : Option (List UInt8)) (filepath : List UInt8) :
    List UInt8 :=
  match dir with
  | none => absolutePath curdir filepath
  | some dirpath => if filepath.head? = some slash then filepath else dirpath ++ filepath

/-- `vfs::mkdirat`, with the `mkdir` of the file systems. -/
def mkdirat (t : MountTable) (mkdir : FileSystem → List UInt8 → Kernel ℤ) (curdir : List UInt8)
    (dir : Option (List UInt8)) (filepath : List UInt8) : Kernel ℤ := do
  let path := mkdirPath curdir dir filepath
  if path.length ≥ maxPath then throw .fault
  match t.getFs (BinProgram.cstring path) with
  | none => throw .fault
  | some fs => mkdir fs path

end MountTable

def Covers (mountPoint path : List UInt8) : Prop :=
  ∃ rest, path = mountPoint ++ rest ∧
    (rest = [] ∨ rest.head? = some slash ∨ mountPoint.getLast? = some slash)

/-- Among the mounted file systems whose mount point covers the path, `f` has the longest one. -/
structure MountTable.Owner (t : MountTable) (path : List UInt8) (f : FileSystem) : Prop where
  mounted : ∃ i, t.slot i = some f
  covers : Covers f.mountPoint path
  longest : ∀ i g, t.slot i = some g → Covers g.mountPoint path →
    g.mountPoint.length ≤ f.mountPoint.length

/-- In whatever order the file systems stand, `getFs` returns the one that owns the path. -/
def MountTable.SelectsOwner (t : MountTable) (filepath : ByteMem) (path : List UInt8) : Prop :=
  ∃ f, t.Owner path f ∧
    ∀ σ : Equiv.Perm (Fin nFileSystem), (t.rearrange σ).getFs filepath = some f

/-- The file system `g` does not get in the way of `f`. From a path of `NFILESYSTEM` bytes on only
a mount point that is a prefix does; the terminator of a shorter path is read as a match. -/
def Yields (path : List UInt8) (f g : FileSystem) : Prop :=
  if path.length + 1 < nFileSystem then g.mountPoint.length < f.mountPoint.length
  else if path.length + 1 = nFileSystem then
    g.mountPoint.length ≤ f.mountPoint.length ∧ g.mountPoint ≠ f.mountPoint
  else g.mountPoint <+: path → g.mountPoint.length < f.mountPoint.length

variable {t t' : MountTable} {filepath : ByteMem} {path m : List UInt8} {f g : FileSystem}
  {i j a b : Fin nFileSystem}

theorem matchFrom_of_zero {n k : ℕ} (h : filepath n = 0) : matchFrom filepath n m k = true := by
  cases m with
  | nil => rfl
  | cons c cs => rw [matchFrom, if_pos h]

theorem matchFrom_iff_prefix {n k : ℕ} (hn : filepath n ≠ 0)
    (h : Spells (fun x => filepath (x + k)) path) (h₀ : 0 ∉ m) :
    matchFrom filepath n m k = true ↔ m <+: path := by
  induction m generalizing k path with
  | nil => simp [matchFrom]
  | cons c cs ih =>
    rw [matchFrom, if_neg hn]
    cases path with
    | nil =>
      have hend : filepath k = 0 := by simpa using h.bytes 0 le_rfl
      have hc : c ≠ filepath k := fun hc => h₀ (by simp [hc, hend])
      simp [hc]
    | cons p ps =>
      have hp : filepath k = p := by simpa using h.bytes 0 (Nat.zero_le _)
      have htail : Spells (fun x => filepath (x + (k + 1))) ps := by
        simpa only [Nat.add_right_comm _ 1 k, Nat.add_assoc] using h.tail
      rw [List.cons_prefix_cons, ← ih htail fun hcs => h₀ (List.mem_cons_of_mem c hcs), hp]
      by_cases hc : c = p
      · simp [hc]
      · simp [hc]

theorem matchFrom_iff {n : ℕ} (h : Spells filepath path) (h₀ : 0 ∉ m) :
    matchFrom filepath n m 0 = true ↔ filepath n = 0 ∨ m <+: path := by
  by_cases hn : filepath n = 0
  · simp [hn, matchFrom_of_zero hn]
  · simp [hn, matchFrom_iff_prefix (k := 0) hn h h₀]

theorem Covers.prefix (h : Covers m path) : m <+: path := by
  obtain ⟨rest, rfl, -⟩ := h
  exact List.prefix_append m rest

theorem covers_root (h : path.head? = some slash) : Covers [slash] path := by
  cases path with
  | nil => cases h
  | cons c path =>
    cases h
    exact ⟨path, rfl, .inr (.inr rfl)⟩

/-- What yields is not preferred to `f`, wherever the two stand. -/
theorem Yields.not_preferred (h : Yields path f g) (hs : Spells filepath path)
    (hf : f.mountPoint <+: path) (hm : matchFrom filepath j g.mountPoint 0 = true) :
    g.mountPoint.length ≤ f.mountPoint.length ∧
      (f.mountPoint.length ≤ g.mountPoint.length → i ≤ j) := by
  have hlast : (i : ℕ) < nFileSystem := i.isLt
  have hmatch := (matchFrom_iff hs g.ne_nul).mp hm
  have hearly : (j : ℕ) < path.length → g.mountPoint <+: path :=
    fun hj => hmatch.resolve_left (hs.ne_zero hj)
  unfold Yields at h
  split at h
  · exact ⟨h.le, fun hle => absurd hle (not_le.mpr h)⟩
  · rename_i hlong
    split at h
    · rename_i hlen
      refine ⟨h.1, fun hle => ?_⟩
      have hpre : ¬g.mountPoint <+: path := fun hg =>
        h.2 ((List.prefix_of_prefix_length_le hg hf h.1).eq_of_length (le_antisymm h.1 hle))
      have hj : path.length ≤ j := not_lt.mp (mt hearly hpre)
      exact Fin.le_def.mpr (by omega)
    · have hg := h (hearly (by
        have := j.isLt
        omega))
      exact ⟨hg.le, fun hle => absurd hle (not_le.mpr hg)⟩

namespace MountTable

def candidate (t : MountTable) (filepath : ByteMem) (i : Fin nFileSystem) : Bool :=
  (t.slot i).any fun mp => matchFrom filepath i mp.mountPoint 0 && mp.mountPoint ≠ []

def mountLength (t : MountTable) (i : Fin nFileSystem) : ℕ :=
  (t.slot i).elim 0 fun mp => mp.mountPoint.length

theorem mountLength_of_some (h : t.slot i = some f) : t.mountLength i = f.mountPoint.length := by
  simp [mountLength, h]

theorem candidate_iff (h : t.slot i = some f) :
    t.candidate filepath i ↔ matchFrom filepath i f.mountPoint 0 = true ∧ f.mountPoint ≠ [] := by
  simp [candidate, h]

theorem foldl_turn (l : List (Fin nFileSystem)) (b : Fin nFileSystem) :
    l.foldl (t.turn filepath) (b, 0) =
      ((l.filter (t.candidate filepath)).argmax t.mountLength).elim (b, 0)
        fun i => (i, t.mountLength i) := by
  induction l using List.reverseRecOn with
  | nil => rfl
  | append_singleton l i ih =>
    rw [List.foldl_append, ih, List.foldl_cons, List.foldl_nil, List.filter_append]
    cases hi : t.slot i with
    | none => simp [turn, candidate, hi]
    | some mp =>
      by_cases hm : matchFrom filepath i mp.mountPoint 0 = true
      · by_cases hnil : mp.mountPoint = []
        · simp [turn, candidate, hi, hnil]
        · have hpos : 0 < mp.mountPoint.length := List.length_pos_of_ne_nil hnil
          have hcand : [i].filter (t.candidate filepath) = [i] := by simp [candidate, hi, hm, hnil]
          rw [hcand, List.argmax_concat]
          cases hbest : (l.filter (t.candidate filepath)).argmax t.mountLength with
          | none => simp [turn, hi, hm, hpos, mountLength]
          | some k =>
            simp only [Option.elim, turn, hi, hm, true_and, mountLength_of_some hi]
            split <;> simp [mountLength_of_some hi]
      · simp [turn, candidate, hi, hm]

/-- When there is a candidate, `getFs` returns the first of those with the longest mount point. -/
theorem getFs_eq_some_iff (hc : ∃ i, t.candidate filepath i) (hf : f.mountPoint ≠ []) :
    t.getFs filepath = some f ↔
      ∃ i, t.slot i = some f ∧ matchFrom filepath i f.mountPoint 0 = true ∧
        ∀ j g, t.slot j = some g → matchFrom filepath j g.mountPoint 0 = true →
          g.mountPoint.length ≤ f.mountPoint.length ∧
            (f.mountPoint.length ≤ g.mountPoint.length → i ≤ j) := by
  set l := (List.finRange nFileSystem).filter (t.candidate filepath) with hl
  have hsorted : l.SortedLT := ((List.sortedLT_finRange _).pairwise.filter _).sortedLT
  have hmem {i} : i ∈ l ↔ t.candidate filepath i := by simp [hl]
  obtain ⟨k, hk⟩ : ∃ k, l.argmax t.mountLength = some k := by
    rw [← Option.ne_none_iff_exists', Ne, List.argmax_eq_none]
    obtain ⟨i, hi⟩ := hc
    exact List.ne_nil_of_mem (hmem.mpr hi)
  have hget : t.getFs filepath = t.slot k := by rw [getFs, foldl_turn, ← hl, hk]; rfl
  rw [hget]
  constructor
  · intro hkf
    have hkl : k ∈ l := List.argmax_mem hk
    refine ⟨k, hkf, ((candidate_iff hkf).mp (hmem.mp hkl)).1, fun j g hg hm => ?_⟩
    by_cases hnil : g.mountPoint = []
    · rw [hnil, List.length_nil]
      exact ⟨Nat.zero_le _, fun h => absurd (List.length_eq_zero_iff.mp (Nat.le_zero.mp h)) hf⟩
    · have hjl : j ∈ l := hmem.mpr ((candidate_iff hg).mpr ⟨hm, hnil⟩)
      rw [← mountLength_of_some hkf, ← mountLength_of_some hg]
      exact ⟨List.le_of_mem_argmax hjl hk, fun h =>
        (hsorted.idxOf_le_iff hkl hjl).mp (List.index_of_argmax hk hjl h)⟩
  · rintro ⟨i, hi, hm, hbest⟩
    have hil : i ∈ l := hmem.mpr ((candidate_iff hi).mpr ⟨hm, hf⟩)
    have hmax : i ∈ l.argmax t.mountLength := by
      have hother : ∀ j ∈ l, t.mountLength j ≤ t.mountLength i ∧
          (t.mountLength i ≤ t.mountLength j → i ≤ j) := by
        intro j hj
        obtain ⟨g, hg⟩ : ∃ g, t.slot j = some g := by
          have hcand := hmem.mp hj
          cases hg : t.slot j with
          | none => simp [candidate, hg] at hcand
          | some g => exact ⟨g, rfl⟩
        rw [mountLength_of_some hi, mountLength_of_some hg]
        exact hbest j g hg ((candidate_iff hg).mp (hmem.mp hj)).1
      exact List.mem_argmax_iff.mpr ⟨hil, fun j hj => (hother j hj).1, fun j hj h =>
        (hsorted.idxOf_le_iff hil hj).mpr ((hother j hj).2 h)⟩
    rw [hk] at hmax
    cases hmax
    exact hi

theorem Owner.ne_nil (h : t.Owner path f) (hroot : ∃ i g, t.slot i = some g ∧ g.mountPoint = [slash])
    (habs : path.head? = some slash) : f.mountPoint ≠ [] := by
  obtain ⟨i, g, hg, hm⟩ := hroot
  have hle := h.longest i g hg (hm ▸ covers_root habs)
  rw [hm] at hle
  exact List.ne_nil_of_length_pos hle

theorem Owner.candidate (h : t.Owner path f) (hf : f.mountPoint ≠ []) (hs : Spells filepath path)
    (σ : Equiv.Perm (Fin nFileSystem)) : ∃ i, (t.rearrange σ).candidate filepath i := by
  obtain ⟨i, hi⟩ := h.mounted
  have hslot : (t.rearrange σ).slot (σ.symm i) = some f := by
    rw [rearrange_slot, Equiv.apply_symm_apply, hi]
  exact ⟨_, (candidate_iff hslot).mpr
    ⟨(matchFrom_iff hs f.ne_nul).mpr (.inr h.covers.prefix), hf⟩⟩

theorem owner_of_yields (hi : t.slot i = some f) (hcov : Covers f.mountPoint path)
    (hy : ∀ j g, t.slot j = some g → g ≠ f → Yields path f g) : t.Owner path f := by
  refine ⟨⟨i, hi⟩, hcov, fun j g hg hgc => ?_⟩
  by_cases hne : g = f
  · rw [hne]
  · have hyield := hy j g hg hne
    unfold Yields at hyield
    split at hyield
    · exact hyield.le
    · split at hyield
      · exact hyield.1
      · exact (hyield hgc.prefix).le

theorem getFs_of_yields (hs : Spells filepath path) (hf : f.mountPoint ≠ [])
    (hi : t.slot i = some f) (hcov : Covers f.mountPoint path)
    (hy : ∀ j g, t.slot j = some g → g ≠ f → Yields path f g)
    (σ : Equiv.Perm (Fin nFileSystem)) : (t.rearrange σ).getFs filepath = some f := by
  have howner := owner_of_yields hi hcov hy
  rw [getFs_eq_some_iff (howner.candidate hf hs σ) hf]
  have hslot : (t.rearrange σ).slot (σ.symm i) = some f := by
    rw [rearrange_slot, Equiv.apply_symm_apply, hi]
  refine ⟨σ.symm i, hslot, (matchFrom_iff hs f.ne_nul).mpr (.inr hcov.prefix), fun j g hg hm => ?_⟩
  by_cases hne : g = f
  · subst hne
    exact ⟨le_rfl, fun _ => ((t.rearrange σ).apart _ _ g g hslot hg rfl).le⟩
  · exact (hy _ g hg hne).not_preferred hs hcov.prefix hm

theorem exists_perm (hab : a ≠ b) (hij : i ≠ j) :
    ∃ σ : Equiv.Perm (Fin nFileSystem), σ a = i ∧ σ b = j := by
  have hb : Equiv.swap a i b ≠ i := by
    intro h
    rw [Equiv.swap_apply_eq_iff, Equiv.swap_apply_right] at h
    exact hab h.symm
  refine ⟨(Equiv.swap a i).trans (Equiv.swap (Equiv.swap a i b) j), ?_, ?_⟩
  · rw [Equiv.trans_apply, Equiv.swap_apply_left, Equiv.swap_apply_of_ne_of_ne hb.symm hij]
  · rw [Equiv.trans_apply, Equiv.swap_apply_left]

/-- If `f` is returned in every order, what matches at some index is not longer than its mount
point, and shorter if another index follows. -/
theorem length_of_matches (hs : Spells filepath path) (howner : t.Owner path f)
    (hf : f.mountPoint ≠ [])
    (hall : ∀ σ : Equiv.Perm (Fin nFileSystem), (t.rearrange σ).getFs filepath = some f)
    (hg : t.slot j = some g) (hne : g ≠ f) (hab : a ≠ b)
    (hm : matchFrom filepath a g.mountPoint 0 = true) :
    g.mountPoint.length ≤ f.mountPoint.length ∧
      (a < b → g.mountPoint.length < f.mountPoint.length) := by
  obtain ⟨i, hi⟩ := howner.mounted
  have hij : j ≠ i := by
    rintro rfl
    exact hne (Option.some.inj (hg.symm.trans hi))
  obtain ⟨σ, ha, hb⟩ := exists_perm hab hij
  obtain ⟨k, hk, -, hbest⟩ := (getFs_eq_some_iff (howner.candidate hf hs σ) hf).mp (hall σ)
  have hkb : k = b := by
    have h : σ k = i := t.apart _ _ f f hk hi rfl
    exact σ.injective (h.trans hb.symm)
  subst hkb
  have hag : (t.rearrange σ).slot a = some g := by rw [rearrange_slot, ha, hg]
  obtain ⟨hle, hlt⟩ := hbest a g hag hm
  exact ⟨hle, fun hlt' => not_le.mp fun h => absurd (hlt h) (not_le.mpr hlt')⟩

theorem yields_of_selects (hs : Spells filepath path) (howner : t.Owner path f)
    (hf : f.mountPoint ≠ [])
    (hall : ∀ σ : Equiv.Perm (Fin nFileSystem), (t.rearrange σ).getFs filepath = some f)
    (hg : t.slot j = some g) (hne : g ≠ f) : Yields path f g := by
  have hn : nFileSystem = 5 := rfl
  have hzero : filepath path.length = 0 := hs.length_eq_zero
  have hpre : g.mountPoint <+: path → g.mountPoint.length < f.mountPoint.length := fun hp =>
    (length_of_matches (a := ⟨0, by decide⟩) (b := ⟨1, by decide⟩) hs howner hf hall hg hne
      (by simp) ((matchFrom_iff hs g.ne_nul).mpr (.inr hp))).2 (by simp)
  unfold Yields
  split
  · rename_i hlen
    exact (length_of_matches (a := ⟨path.length, by omega⟩) (b := ⟨path.length + 1, hlen⟩) hs howner
      hf hall hg hne (by simp) (matchFrom_of_zero hzero)).2 (Fin.mk_lt_mk.mpr (Nat.lt_succ_self _))
  · split
    · rename_i hlen
      constructor
      · exact (length_of_matches (a := ⟨path.length, by omega⟩) (b := ⟨0, by decide⟩) hs howner
          hf hall hg hne (Fin.ne_of_val_ne (by change path.length ≠ 0; omega))
          (matchFrom_of_zero hzero)).1
      · intro heq
        have hlt := hpre (heq ▸ howner.covers.prefix)
        rw [heq] at hlt
        exact lt_irrefl _ hlt
    · exact hpre

/-- `getFs` selects the owner in every order if and only if the other file systems yield to a file
system that covers the path. -/
theorem selectsOwner_iff (hs : Spells filepath path) (habs : path.head? = some slash)
    (hroot : ∃ i g, t.slot i = some g ∧ g.mountPoint = [slash]) :
    t.SelectsOwner filepath path ↔
      ∃ i f, t.slot i = some f ∧ Covers f.mountPoint path ∧
        ∀ j g, t.slot j = some g → g ≠ f → Yields path f g := by
  constructor
  · rintro ⟨f, howner, hall⟩
    obtain ⟨i, hi⟩ := howner.mounted
    exact ⟨i, f, hi, howner.covers, fun j g hg hne =>
      yields_of_selects hs howner (howner.ne_nil hroot habs) hall hg hne⟩
  · rintro ⟨i, f, hi, hcov, hy⟩
    have howner := owner_of_yields hi hcov hy
    exact ⟨f, howner, getFs_of_yields hs (howner.ne_nil hroot habs) hi hcov hy⟩

theorem mkdirat_of_yields (mkdir : FileSystem → List UInt8 → Kernel ℤ) {curdir filepath : List UInt8}
    {dir : Option (List UInt8)} (hpath : mkdirPath curdir dir filepath = path) (h₀ : 0 ∉ path)
    (hlen : path.length < maxPath) (hf : f.mountPoint ≠ []) (hi : t.slot i = some f)
    (hcov : Covers f.mountPoint path)
    (hy : ∀ j g, t.slot j = some g → g ≠ f → Yields path f g) :
    t.mkdirat mkdir curdir dir filepath = mkdir f path := by
  have hget : t.getFs (BinProgram.cstring path) = some f :=
    getFs_of_yields (spells_cstring h₀) hf hi hcov hy (Equiv.refl _)
  simp only [mkdirat, hpath, if_neg (not_le.mpr hlen), hget]

def Lists (t : MountTable) (l : List FileSystem) : Prop :=
  l.length ≤ nFileSystem ∧ ∀ i : Fin nFileSystem, t.slot i = l[(i : ℕ)]?

theorem lists_empty : empty.Lists [] := ⟨Nat.zero_le _, fun _ => rfl⟩

/-- The file systems stand in the order in which they are mounted. -/
theorem Lists.mount {l : List FileSystem} {curdir mountPoint : List UInt8} {obj : ℕ}
    {hobj : t.Fresh obj} {h₀ : 0 ∉ curdir ++ mountPoint} (h : t.Lists l)
    (hm : t.mount curdir mountPoint obj hobj h₀ = .ok t') :
    t'.Lists (l ++ [⟨obj, absolutePath curdir mountPoint, nul_not_mem_absolutePath h₀⟩]) := by
  unfold MountTable.mount at hm
  split at hm
  · cases hm
  · split at hm
    · cases hm
    · rename_i i hfind
      cases hm
      obtain ⟨hfree, n, hn, hni, hbefore⟩ := List.find?_eq_some_iff_getElem.mp hfind
      rw [List.getElem_finRange] at hni
      have hin : (i : ℕ) = n := by rw [← hni]; rfl
      have hlen : l.length = i := by
        have hle : l.length ≤ i := by
          have hnone := of_decide_eq_true hfree
          rw [h.2 i] at hnone
          exact List.getElem?_eq_none_iff.mp hnone
        by_contra hne
        have hlt : l.length < i := lt_of_le_of_ne hle hne
        have hslot := h.2 ⟨l.length, hlt.trans i.isLt⟩
        have hb := hbefore l.length (hin ▸ hlt)
        simp [hslot] at hb
      constructor
      · rw [List.length_append, List.length_singleton, hlen]
        exact i.isLt
      · intro j
        simp only [put, Function.update_apply]
        split
        · rename_i hj
          rw [hj, ← hlen, List.getElem?_concat_length]
        · rename_i hj
          rw [h.2 j]
          have hne : (j : ℕ) ≠ l.length := fun he => hj (Fin.ext (he.trans hlen))
          rcases lt_or_gt_of_ne hne with hlt | hgt
          · rw [List.getElem?_append_left hlt]
          · rw [List.getElem?_eq_none hgt.le, List.getElem?_eq_none (by
              rw [List.length_append, List.length_singleton]
              exact hgt)]

/-- The table that `vfs::init` makes: the devices at `/dev`, then the disk at the root. -/
def boot : MountTable :=
  (empty.put ⟨0, by decide⟩ ⟨1, [slash, 0x64, 0x65, 0x76], by decide⟩ (by simp [Fresh, empty])).put
    ⟨1, by decide⟩ ⟨2, [slash], by decide⟩ (by
      simp only [Fresh, put, empty, Function.update_apply]
      rintro i f h
      split at h <;> cases h
      decide)

theorem boot_slot (i : Fin nFileSystem) : boot.slot i =
    if i = ⟨1, by decide⟩ then some ⟨2, [slash], by decide⟩
    else if i = ⟨0, by decide⟩ then some ⟨1, [slash, 0x64, 0x65, 0x76], by decide⟩ else none := by
  simp only [boot, put, empty, Function.update_apply]

theorem mount_of_slash {t : MountTable} {curdir mountPoint : List UInt8} {obj : ℕ}
    {hobj : t.Fresh obj}
    {h₀ : 0 ∉ curdir ++ mountPoint} (habs : mountPoint.head? = some slash)
    (hlen : mountPoint.length < maxPath) {i : Fin nFileSystem}
    (hi : ((List.finRange nFileSystem).find? fun i => t.slot i = none) = some i) :
    t.mount curdir mountPoint obj hobj h₀ =
      .ok (t.put i ⟨obj, mountPoint, fun h => h₀ (List.mem_append_right _ h)⟩ hobj) := by
  have hpath := absolutePath_of_slash curdir habs
  unfold MountTable.mount
  simp only [hpath, if_neg (not_le.mpr hlen), hi]

theorem mount_mount_boot {curdir : List UInt8} (h₀ : 0 ∉ curdir) : ∃ t h₁ h₂ h₃ h₄,
    empty.mount curdir [slash, 0x64, 0x65, 0x76] 1 h₁ h₂ = .ok t ∧
      t.mount curdir [slash] 2 h₃ h₄ = .ok boot := by
  have hdev : (0 : UInt8) ∉ curdir ++ [slash, 0x64, 0x65, 0x76] := by simp [h₀, slash]
  have hroot : (0 : UInt8) ∉ curdir ++ [slash] := by simp [h₀, slash]
  have hempty : empty.Fresh 1 := by simp [Fresh, empty]
  have hput : (empty.put ⟨0, by decide⟩ ⟨1, [slash, 0x64, 0x65, 0x76], by decide⟩ hempty).Fresh 2 := by
    intro i f h
    simp only [put, empty, Function.update_apply] at h
    split at h
    · cases h
      simp
    · cases h
  exact ⟨_, hempty, hdev, hput, hroot,
    mount_of_slash rfl (by decide) (i := ⟨0, by decide⟩) rfl,
    mount_of_slash rfl (by decide) (i := ⟨1, by decide⟩) rfl⟩

theorem boot_lists : boot.Lists
    [⟨1, [slash, 0x64, 0x65, 0x76], by decide⟩, ⟨2, [slash], by decide⟩] := by
  have h₀ : (0 : UInt8) ∉ [] := List.not_mem_nil
  obtain ⟨t, h₁, h₂, h₃, h₄, hdev, hroot⟩ := mount_mount_boot h₀
  exact (lists_empty.mount hdev).mount hroot

theorem boot_yields (hlen : nFileSystem ≤ path.length) (hdev : ¬[slash, 0x64, 0x65, 0x76] <+: path)
    (hg : boot.slot j = some g) (hne : g ≠ ⟨2, [slash], by decide⟩) :
    Yields path ⟨2, [slash], by decide⟩ g := by
  rw [boot_slot] at hg
  split at hg
  · cases hg
    exact absurd rfl hne
  · split at hg
    · cases hg
      rw [Yields, if_neg (by omega), if_neg (by omega)]
      exact fun h => absurd h hdev
    · cases hg

theorem mkdirat_boot (mkdir : FileSystem → List UInt8 → Kernel ℤ) {curdir filepath : List UInt8}
    {dir : Option (List UInt8)} (hpath : mkdirPath curdir dir filepath = path) (h₀ : 0 ∉ path)
    (habs : path.head? = some slash) (hmin : nFileSystem ≤ path.length)
    (hmax : path.length < maxPath) (hdev : ¬[slash, 0x64, 0x65, 0x76] <+: path) :
    boot.mkdirat mkdir curdir dir filepath = mkdir ⟨2, [slash], by decide⟩ path :=
  mkdirat_of_yields mkdir hpath h₀ hmax (by simp) (boot_slot ⟨1, by decide⟩) (covers_root habs)
    fun _ _ hg hne => boot_yields hmin hdev hg hne

theorem selectsOwner_disk :
    boot.SelectsOwner (BinProgram.cstring [slash, 0x61, 0x2e, 0x74, 0x78, 0x74])
      [slash, 0x61, 0x2e, 0x74, 0x78, 0x74] := by
  refine (selectsOwner_iff (spells_cstring (by decide)) rfl
    ⟨⟨1, by decide⟩, _, boot_slot _, rfl⟩).mpr
    ⟨⟨1, by decide⟩, _, boot_slot _, covers_root rfl, fun j g hg hne => ?_⟩
  exact boot_yields (by decide) (by decide) hg hne

/-- The directory `/device` is not under `/dev`, but `getFs` takes it to be. -/
theorem not_selectsOwner_device :
    ¬boot.SelectsOwner (BinProgram.cstring [slash, 0x64, 0x65, 0x76, 0x69, 0x63, 0x65])
      [slash, 0x64, 0x65, 0x76, 0x69, 0x63, 0x65] := by
  rintro ⟨f, howner, hall⟩
  have hdev : boot.getFs (BinProgram.cstring [slash, 0x64, 0x65, 0x76, 0x69, 0x63, 0x65]) =
      some ⟨1, [slash, 0x64, 0x65, 0x76], by decide⟩ := by decide +kernel
  have hf := (hall (Equiv.refl _)).symm.trans hdev
  cases hf
  obtain ⟨rest, heq, hend⟩ := howner.covers
  have hrest : rest = [0x69, 0x63, 0x65] := by simpa using heq.symm
  subst hrest
  exact absurd hend (by decide)

end MountTable

end StartOS
