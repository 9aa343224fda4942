import StartOS.Fs.PathRefs
import StartOS.Os.Descriptors

/-! # Where a path starts

`openat` walks along its path from the directory it is given, also when the path
begins with a slash. Otherwise it opens what the names of the path lead to and
holds one reference to it. A directory in which the walk makes an inode keeps a
reference for it.
-/

namespace StartOS

open Hoare

/-- The `struct file` that `openat` makes for an inode. -/
def fileOf (ip : FoundInode) (flags : ℕ) : FileHandle where
  ref := 1
  type := .inode
  readable := flags &&& 1 = 0
  writable := flags &&& 1 ≠ 0 ∨ flags &&& 2 ≠ 0
  inode := ip.inode
  pipe := 0
  mode := ip.mode
  size := ip.sz
  offset := if flags &&& 8 ≠ 0 ∨ flags &&& 0x400 ≠ 0 then ip.sz else 0

theorem openat_eq_newFile (fp : ℕ) (found : Option FoundInode) (flags : ℕ) :
    openat fp found flags =
      match found with
      | none => return none
      | some ip => do
        newFile fp (fileOf ip flags)
        return some fp := rfl

namespace InodeTree

open InodeM

variable {σ : Type} (T : InodeTree σ)

/-- The path search of `VfsManager::openat` from `dp`. With `O_CREATE` the name that
`nameiparent` leaves is created in `dp`, although the reference to `dp` is gone by then. -/
def openInode (behind junk : List UInt8) (dp cwd : ℕ) (path : List UInt8) (flags mode : ℕ) :
    InodeM σ (Option ℕ) := do
  if flags &&& 0x40 ≠ 0 then
    let (_, name) ← T.walk T.makes behind true dp path junk
    let (r, fs) ← StateT.lift (T.create dp name mode (← get).fs)
    modify fun s => { s with fs := fs }
    if r < 0 then throw (.panic "can't create file")
    T.namei behind cwd (some dp) name
  else T.namei behind cwd (some dp) path

/-- The directory whose inode `openat` takes a reference to. -/
def openBase (cwd : ℕ) (dir : Option FileHandle) (path : List UInt8) : ℕ :=
  match dir with
  | some dir => dir.inode
  | none => pathBase cwd path

/-- `VfsManager::openat` for a task whose `cwd` is given. -/
def openat (behind junk : List UInt8) (cwd : ℕ) (dir : Option FileHandle) (path : List UInt8)
    (flags mode : ℕ) : InodeM σ (Option FileHandle) := do
  let dp ← dup (openBase cwd dir path)
  match ← T.openInode behind junk dp cwd path flags mode with
  | none => return none
  | some ip =>
    let fs := (← get).fs
    return some (fileOf ⟨ip, T.sz fs ip, T.mode fs ip⟩ flags)

/-- The directory that a path is resolved from: the root for an absolute path, otherwise the one
that is given, or `cwd`. -/
def resolveBase (cwd : ℕ) (dir : Option FileHandle) (path : List UInt8) : ℕ :=
  if path.head? = some slash then rootInode
  else
    match dir with
    | some dir => dir.inode
    | none => cwd

/-- `openat` opens what the path resolves to from its base, and the directory it is given has no
other reference than before, unless it is the file that is opened. -/
def OpensFromBase (behind junk : List UInt8) (cwd : ℕ) (dir : Option FileHandle)
    (path : List UInt8) (flags mode : ℕ) (s : InodeTable σ) : Prop :=
  ∃ r s', T.openat behind junk cwd dir path flags mode s = .ok (r, s') ∧
    r.map FileHandle.inode =
      (T.lookups (resolveBase cwd dir path) (pathNames behind path) s.fs).1 ∧
    ∀ d ∈ dir, s'.ref d.inode =
      s.ref d.inode + if r.map FileHandle.inode = some d.inode then 1 else 0

variable {T} {s : InodeTable σ} {path behind junk : List UInt8} {cwd flags mode : ℕ}
  {dir : Option FileHandle}

theorem Quiescent.held (hq : Quiescent s) : Held s.ref none [] s where
  nonneg := hq.nonneg
  ref x := by simp
  unlocked := hq.unlocked

/-- `openat` of an existing file, from the directory it starts at. -/
theorem openat_run (T : InodeTree σ) (behind junk : List UInt8) (cwd : ℕ) (dir : Option FileHandle)
    (path : List UInt8) (mode : ℕ) (hq : Quiescent s) (hf : flags &&& 0x40 = 0) :
    ∃ r s', T.openat behind junk cwd dir path flags mode s = .ok (r, s') ∧
      r.map FileHandle.inode =
        (T.lookups (openBase cwd dir path) (pathNames behind path) s.fs).1 ∧
      Held s.ref (r.map FileHandle.inode) (T.makesIn T.makes s.ref (openBase cwd dir path)
        (pathNames behind path) s.fs []) s' := by
  obtain ⟨s₁, hdup, h₁, hfs⟩ := hq.held.dup (openBase cwd dir path)
  obtain ⟨ip, name, s', hrun, h', hres, -⟩ := walk_run T T.makes behind path false [] h₁
  rw [hfs] at hres h'
  have hip : ip = (T.lookups (openBase cwd dir path) (pathNames behind path) s.fs).1 :=
    congrArg Prod.fst (hres rfl)
  have hsearch : T.openInode behind junk (openBase cwd dir path) cwd path flags mode s₁ =
      .ok (ip, s') := by
    rw [openInode, if_neg (not_not.mpr hf), namei]
    rw [pure_bind_apply]
    exact bind_of_ok hrun
  unfold InodeTree.openat
  rw [bind_of_ok hdup, bind_of_ok hsearch, ← hip]
  cases ip with
  | none => exact ⟨none, s', rfl, rfl, h'⟩
  | some ip => exact ⟨some _, s', rfl, rfl, h'⟩

theorem resolveBase_eq (h : path.head? ≠ some slash ∨ dir = none) :
    resolveBase cwd dir path = openBase cwd dir path := by
  unfold resolveBase openBase pathBase
  cases dir with
  | none => rfl
  | some dir =>
    rw [if_neg (h.resolve_right (by simp))]

/-- `openat` resolves its path as it says it does exactly when an absolute path leads from the
directory it is given to where it leads from the root, and no file that the path looks up in that
directory has to be made an inode. -/
theorem opensFromBase_iff (T : InodeTree σ) (behind junk : List UInt8) (cwd : ℕ)
    (dir : Option FileHandle) (path : List UInt8) (flags mode : ℕ) (s : InodeTable σ)
    (hq : Quiescent s) (hf : flags &&& 0x40 = 0) :
    T.OpensFromBase behind junk cwd dir path flags mode s ↔
      ∀ d ∈ dir, (path.head? = some slash →
          (T.lookups d.inode (pathNames behind path) s.fs).1 =
            (T.lookups rootInode (pathNames behind path) s.fs).1) ∧
        d.inode ∉ T.makesIn T.makes s.ref d.inode (pathNames behind path) s.fs [] := by
  obtain ⟨r, s', hrun, hres, h'⟩ := T.openat_run behind junk cwd dir path mode hq hf
  have hopens : T.OpensFromBase behind junk cwd dir path flags mode s ↔
      r.map FileHandle.inode =
          (T.lookups (resolveBase cwd dir path) (pathNames behind path) s.fs).1 ∧
        ∀ d ∈ dir, s'.ref d.inode =
          s.ref d.inode + if r.map FileHandle.inode = some d.inode then 1 else 0 := by
    constructor
    · rintro ⟨r', s'', hrun', hres', href⟩
      rw [hrun] at hrun'
      cases hrun'
      exact ⟨hres', href⟩
    · rintro ⟨h, href⟩
      exact ⟨r, s', hrun, h, href⟩
  rw [hopens]
  cases dir with
  | none =>
    rw [resolveBase_eq (.inr rfl), hres]
    simp
  | some d =>
    have href : s'.ref d.inode = s.ref d.inode +
        (if r.map FileHandle.inode = some d.inode then 1 else 0) ↔
          d.inode ∉ T.makesIn T.makes s.ref d.inode (pathNames behind path) s.fs [] := by
      rw [h'.ref, openBase, ← List.count_eq_zero]
      omega
    have hbase : r.map FileHandle.inode =
        (T.lookups (resolveBase cwd (some d) path) (pathNames behind path) s.fs).1 ↔
          (path.head? = some slash → (T.lookups d.inode (pathNames behind path) s.fs).1 =
            (T.lookups rootInode (pathNames behind path) s.fs).1) := by
      rw [hres]
      by_cases hslash : path.head? = some slash
      · simp [resolveBase, openBase, hslash]
      · rw [resolveBase_eq (.inl hslash)]
        simp [hslash]
    simp only [Option.mem_some_iff, forall_eq', href, hbase]

def dirFile (ip : ℕ) : FileHandle := fileOf ⟨ip, 0, 0o040000⟩ 0

def twoDirs : InodeTree Unit :=
  { oneFile with mode := fun _ ip => if ip = 1 then 0o100000 else 0o040000 }

theorem pathNames_a (behind : List UInt8) : pathNames behind [0x61] = [[0x61]] := by
  rw [pathNames_of_some (show skipElement [0x61] = some ([], [0x61]) from rfl),
    pathNames_of_none (show skipElement [] = none from rfl)]
  rfl

theorem opensFromBase_relative :
    twoDirs.OpensFromBase [] [] 2 (some (dirFile 0)) [0x61] 0 0 atRest := by
  refine (opensFromBase_iff twoDirs [] [] 2 (some (dirFile 0)) [0x61] 0 0 atRest quiescent_atRest
    rfl).mpr fun d hd => ?_
  obtain rfl := Option.mem_some_iff.mp hd
  rw [pathNames_a]
  exact ⟨nofun, by decide⟩

/-- With the directory 2 the path `/a` is not found, although the root has a file `a`. -/
theorem not_opensFromBase_absolute :
    ¬twoDirs.OpensFromBase [] [] 0 (some (dirFile 2)) [slash, 0x61] 0 0 atRest := by
  rintro ⟨r, s', hrun, hres, -⟩
  obtain ⟨r', s'', hrun', hres', -⟩ := twoDirs.openat_run [] [] 0 (some (dirFile 2))
    [slash, 0x61] 0 quiescent_atRest (show 0 &&& 0x40 = 0 from rfl)
  rw [hrun'] at hrun
  cases hrun
  rw [hres', pathNames_slash_a] at hres
  cases hres

theorem not_opensFromBase_made : ¬twoDirs.OpensFromBase [] [] 0 (some (dirFile 0)) [0x61] 0 0
    { atRest with ref := fun x => if x = 1 then 0 else 1 } := by
  have hq : Quiescent { atRest with ref := fun x => if x = 1 then 0 else 1 } :=
    ⟨fun _ => rfl, fun x => by dsimp only; split <;> decide⟩
  rintro ⟨r, s', hrun, hres, href⟩
  obtain ⟨r', s'', hrun', -, h'⟩ := twoDirs.openat_run [] [] 0 (some (dirFile 0)) [0x61] 0 hq
    (show 0 &&& 0x40 = 0 from rfl)
  rw [hrun'] at hrun
  cases hrun
  have hd := href _ rfl
  rw [h'.ref, pathNames_a, hres, pathNames_a] at hd
  revert hd
  decide

end InodeTree

theorem Volume.openat_finds (v : Volume) (makes : ℕ → List UInt8 → Bool)
    (create : ℕ → List UInt8 → ℕ → Kernel ℤ)
    {s : InodeTable Unit} {flags : ℕ} (behind junk : List UInt8) (cwd : ℕ) (dir : Option FileHandle)
    (path : List UInt8) (mode : ℕ) (hq : InodeTree.Quiescent s) (hf : flags &&& 0x40 = 0) :
    ∃ r s', (v.tree makes create).openat behind junk cwd dir path flags mode s = .ok (r, s') ∧
      r.map FileHandle.inode = v.namei behind (InodeTree.openBase cwd dir path) path := by
  obtain ⟨r, s', hrun, hres, -⟩ :=
    (v.tree makes create).openat_run behind junk cwd dir path mode hq hf
  exact ⟨r, s', hrun, hres.trans (congrArg Prod.fst (v.namei_eq_lookups makes create path)).symm⟩

end StartOS
