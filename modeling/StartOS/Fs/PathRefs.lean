import Mathlib.Tactic.Ring
import StartOS.Fs.PathScan
import StartOS.Lib.Hoare

/-! # References along a path

`namex` holds one reference to the inode it is at and gives it back when it goes
on. What it returns is a fold of lookups over the names of the path, and besides
the references to its argument and its result every count is as it was.
-/

namespace StartOS

open Hoare

/-- What `VfsManager` calls of the file systems. Their state `σ` decides about modes, sizes and
lookups; `makes` says whether a lookup ends in `BuildInode`, which makes the inode it has found
where that is not in memory; `mounts` are the inodes `origin` and `target` of the mount points in
use. -/
structure InodeTree (σ : Type) where
  mode : σ → ℕ → ℕ
  sz : σ → ℕ → ℕ
  lookup : ℕ → List UInt8 → σ → Option ℕ × σ
  makes : ℕ → List UInt8 → σ → Bool
  create : ℕ → List UInt8 → ℕ → σ → Kernel (ℤ × σ)
  mounts : List (ℕ × ℕ)

/-- The reference counts and the locks of all inodes, the inodes that `DeleteInode` was called
for, latest first, and the state of the file systems. -/
structure InodeTable (σ : Type) where
  ref : ℕ → ℤ
  locked : ℕ → Bool
  deleted : List ℕ
  fs : σ

abbrev InodeM (σ : Type) := StateT (InodeTable σ) Kernel

/-- `S_ISDIR`. -/
def isDirMode (mode : ℕ) : Bool := mode &&& 0o170000 = 0o040000

namespace InodeM

variable {σ : Type}

/-- `inode::lock`. A lock that is not given back is waited for. -/
def lock (ip : ℕ) : InodeM σ Unit := do
  if (← get).locked ip then throw .hang
  modify fun s => { s with locked := Function.update s.locked ip true }

def unlock (ip : ℕ) : InodeM σ Unit :=
  modify fun s => { s with locked := Function.update s.locked ip false }

def addRef (ip : ℕ) (k : ℤ) : InodeM σ Unit :=
  modify fun s => { s with ref := Function.update s.ref ip (s.ref ip + k) }

def dup (ip : ℕ) : InodeM σ ℕ := do
  lock ip
  addRef ip 1
  unlock ip
  return ip

def free (ip : ℕ) : InodeM σ Unit := do
  lock ip
  if (← get).ref ip < 1 then throw (.panic "inode free")
  addRef ip (-1)
  if (← get).ref ip = 0 then modify fun s => { s with deleted := ip :: s.deleted }
  unlock ip

end InodeM

namespace InodeTree

open InodeM

variable {σ : Type} (T : InodeTree σ)

/-- `ip->file_system->Lookup`, which takes a reference to what it finds. Where `makes` says so it
ends in `BuildInode`: an inode without a reference is not in memory, and the new one keeps a
reference to its directory. -/
def lookupRef (makes : ℕ → List UInt8 → σ → Bool) (ip : ℕ) (name : List UInt8) :
    InodeM σ (Option ℕ) := do
  let s ← get
  set { s with fs := (T.lookup ip name s.fs).2 }
  match (T.lookup ip name s.fs).1 with
  | none => return none
  | some next =>
    if makes ip name s.fs ∧ s.ref next = 0 then addRef ip 1
    addRef next 1
    return some next

def convertInodeByMp (ip : ℕ) : InodeM σ ℕ :=
  match T.mounts.find? fun m => m.1 = ip with
  | none => return ip
  | some m => do
    free ip
    dup m.2

/-- `namex` where no name is left. -/
def namexEnd (nameiparent : Bool) (ip : ℕ) (name : List UInt8) :
    InodeM σ (Option ℕ × List UInt8) := do
  if nameiparent then
    free ip
    return (none, name)
  else return (some ip, name)

/-- The body of the loop of `namex` with the name in its buffer; `next` is the next turn. -/
def namexTurn (makes : ℕ → List UInt8 → σ → Bool) (nameiparent last : Bool) (ip : ℕ)
    (name : List UInt8) (next : ℕ → InodeM σ (Option ℕ × List UInt8)) :
    InodeM σ (Option ℕ × List UInt8) := do
  lock ip
  if !isDirMode (T.mode (← get).fs ip) then
    unlock ip
    free ip
    return (none, name)
  if nameiparent && last then
    unlock ip
    return (some ip, name)
  match ← T.lookupRef makes ip name with
  | none =>
    unlock ip
    free ip
    return (none, name)
  | some found =>
    unlock ip
    free ip
    let ip ← T.convertInodeByMp found
    next ip

/-- The walk of `namex`. The second part of the result is the buffer `name`, `behind` the bytes
behind it. -/
def walk (makes : ℕ → List UInt8 → σ → Bool) (behind : List UInt8) (nameiparent : Bool) (ip : ℕ)
    (path name : List UInt8) : InodeM σ (Option ℕ × List UInt8) :=
  match _h : skipElement path with
  | none => namexEnd nameiparent ip name
  | some (rest, element) =>
    T.namexTurn makes nameiparent rest.isEmpty ip (Volume.bufferName behind element) fun ip =>
      walk makes behind nameiparent ip rest (Volume.bufferName behind element)
termination_by path.length
decreasing_by exact length_of_skipElement _h

/-- `namex` where `Lookup` adds one reference to its result and no other. -/
def namex (behind : List UInt8) (nameiparent : Bool) (ip : ℕ) (path name : List UInt8) :
    InodeM σ (Option ℕ × List UInt8) :=
  T.walk (fun _ _ _ => false) behind nameiparent ip path name

/-- `namei`, for a task whose `cwd` is given. -/
def namei (behind : List UInt8) (cwd : ℕ) (dir : Option ℕ) (path : List UInt8) :
    InodeM σ (Option ℕ) := do
  let dir ←
    match dir with
    | some dir => pure dir
    | none => dup (pathBase cwd path)
  let (ip, _) ← T.walk T.makes behind false dir path []
  return ip

def mounted (ip : ℕ) : ℕ :=
  match T.mounts.find? fun m => m.1 = ip with
  | none => ip
  | some m => m.2

def lookups : ℕ → List (List UInt8) → σ → Option ℕ × σ
  | ip, [], fs => (some ip, fs)
  | ip, c :: cs, fs =>
    if isDirMode (T.mode fs ip) then
      match T.lookup ip c fs with
      | (none, fs) => (none, fs)
      | (some next, fs) => lookups (T.mounted next) cs fs
    else (none, fs)

def parentOf (ip : ℕ) (cs : List (List UInt8)) (fs : σ) : Option ℕ :=
  if cs = [] then none
  else
    let found := T.lookups ip cs.dropLast fs
    found.1.filter fun dp => isDirMode (T.mode found.2 dp)

/-- The names of a path as `SkipElememt` leaves them in the buffer. -/
def pathNames (behind path : List UInt8) : List (List UInt8) :=
  (elements path).map (Volume.bufferName behind)

/-- The directories that the names `cs` make inodes in when they are looked up from `ip` on, after
those in `made`. An inode is in memory when it has a reference in `ref`, is the current directory
or has had an inode made in it. -/
def makesIn (makes : ℕ → List UInt8 → σ → Bool) (ref : ℕ → ℤ) :
    ℕ → List (List UInt8) → σ → List ℕ → List ℕ
  | _, [], _, made => made
  | ip, c :: cs, fs, made =>
    if isDirMode (T.mode fs ip) then
      match T.lookup ip c fs with
      | (none, _) => made
      | (some next, fs') => makesIn makes ref (T.mounted next) cs fs'
          (if makes ip c fs ∧ ref next = 0 ∧ next ≠ ip ∧ next ∉ made then ip :: made else made)
    else made

/-- One reference to `ip` is gone and one to the result has been taken; the locks are as they
were. -/
structure Traded (s s' : InodeTable σ) (ip : ℕ) (r : Option ℕ) : Prop where
  ref : ∀ x, s'.ref x = s.ref x - (if x = ip then 1 else 0) + (if r = some x then 1 else 0)
  unlocked : s'.locked = s.locked

variable {T} {s s' : InodeTable σ} {ip next : ℕ} {r cur : Option ℕ} {fs fs' : σ}
  {behind path rest element name : List UInt8} {c : List UInt8} {cs : List (List UInt8)}
  {makes : ℕ → List UInt8 → σ → Bool} {ref : ℕ → ℤ} {made : List ℕ}

structure Quiescent (s : InodeTable σ) : Prop where
  unlocked : ∀ x, s.locked x = false
  nonneg : ∀ x, 0 ≤ s.ref x

/-- Over the counts `ref` one reference to `cur` is held, and one to a directory for each inode
made in it. No inode is locked. -/
structure Held (ref : ℕ → ℤ) (cur : Option ℕ) (made : List ℕ) (s : InodeTable σ) : Prop where
  nonneg : ∀ x, 0 ≤ ref x
  ref : ∀ x, s.ref x = ref x + (if cur = some x then 1 else 0) + made.count x
  unlocked : ∀ x, s.locked x = false

section Calls

theorem unlock_lock (h : s.locked ip = false) :
    Function.update (Function.update s.locked ip true) ip false = s.locked := by
  rw [Function.update_idem, ← h, Function.update_eq_self]

theorem lock_ok (h : s.locked ip = false) :
    lock ip s = .ok ((), { s with locked := Function.update s.locked ip true }) := by
  rw [lock, get_bind, h]
  rfl

theorem dup_ok (h : s.locked ip = false) :
    dup ip s = .ok (ip, { s with ref := Function.update s.ref ip (s.ref ip + 1) }) := by
  rw [dup, bind_of_ok (lock_ok h), addRef, modify_bind, unlock, modify_bind, unlock_lock h]
  rfl

theorem free_ok (h : s.locked ip = false) (hr : 1 ≤ s.ref ip) :
    ∃ s', free ip s = .ok ((), s') ∧ s'.ref = Function.update s.ref ip (s.ref ip - 1) ∧
      s'.locked = s.locked ∧ s'.fs = s.fs := by
  rw [free, bind_of_ok (lock_ok h), get_bind]
  rw [if_neg (by simpa using hr)]
  dsimp only
  rw [addRef, modify_bind, get_bind]
  split
  · exact ⟨_, rfl, rfl, unlock_lock h, rfl⟩
  · exact ⟨_, rfl, rfl, unlock_lock h, rfl⟩

theorem unlock_ok (h : s.locked ip = false) :
    unlock ip { s with locked := Function.update s.locked ip true } = .ok ((), s) := by
  rw [unlock, modify_apply]
  simp only [unlock_lock h]

theorem lookupRef_none (makes : ℕ → List UInt8 → σ → Bool)
    (h : T.lookup ip c s.fs = (none, fs)) :
    T.lookupRef makes ip c s = .ok (none, { s with fs := fs }) := by
  rw [lookupRef, get_bind, set_bind, h]
  rfl

/-- What `lookupRef` leaves of the counts when it finds `next`. -/
def lookedUp (makes : Bool) (ip next : ℕ) (ref : ℕ → ℤ) : ℕ → ℤ :=
  if makes ∧ ref next = 0 then
    Function.update (Function.update ref ip (ref ip + 1)) next
      (Function.update ref ip (ref ip + 1) next + 1)
  else Function.update ref next (ref next + 1)

theorem lookupRef_some (h : T.lookup ip c s.fs = (some next, fs)) :
    T.lookupRef makes ip c s =
      .ok (some next, { s with fs := fs, ref := lookedUp (makes ip c s.fs) ip next s.ref }) := by
  rw [lookupRef, get_bind, set_bind, h, lookedUp]
  dsimp only
  split
  · rfl
  · rfl

end Calls

namespace Held

theorem one_le (h : Held ref (some ip) made s) : 1 ≤ s.ref ip := by
  have := h.nonneg ip
  rw [h.ref, if_pos rfl]
  omega

theorem ref_eq_zero (h : Held ref (some ip) made s) :
    s.ref next = 0 ↔ ref next = 0 ∧ next ≠ ip ∧ next ∉ made := by
  have hcount : made.count next = 0 ↔ next ∉ made := List.count_eq_zero
  have hn := h.nonneg next
  rw [h.ref, ← hcount]
  simp only [Option.some.injEq, eq_comm (a := ip)]
  split <;> omega

theorem withFs (h : Held ref cur made s) (fs : σ) : Held ref cur made { s with fs := fs } :=
  ⟨h.nonneg, h.ref, h.unlocked⟩

theorem free (h : Held ref (some ip) made s) :
    ∃ s', InodeM.free ip s = .ok ((), s') ∧ Held ref none made s' ∧ s'.fs = s.fs := by
  obtain ⟨s', hfree, href, hlocked, hfs⟩ := free_ok (h.unlocked ip) h.one_le
  refine ⟨s', hfree, ⟨h.nonneg, fun x => ?_, fun x => by rw [hlocked, h.unlocked]⟩, hfs⟩
  by_cases hx : x = ip
  · subst hx
    rw [href, Function.update_self, h.ref, if_pos rfl, if_neg (Option.some_ne_none x).symm]
    ring
  · rw [href, Function.update_of_ne hx, h.ref, if_neg (fun he => hx (Option.some.inj he).symm),
      if_neg (Option.some_ne_none x).symm]

theorem dup (h : Held ref none made s) (ip : ℕ) :
    ∃ s', InodeM.dup ip s = .ok (ip, s') ∧ Held ref (some ip) made s' ∧ s'.fs = s.fs := by
  refine ⟨_, dup_ok (h.unlocked ip), ⟨h.nonneg, fun x => ?_, h.unlocked⟩, rfl⟩
  have hx := h.ref x
  rw [if_neg (Option.some_ne_none x).symm] at hx
  by_cases hip : x = ip
  · subst hip
    simp only [Function.update_self, if_true]
    omega
  · simp only [Function.update_of_ne hip, if_neg (fun he => hip (Option.some.inj he).symm)]
    exact hx

theorem convertInodeByMp (h : Held ref (some ip) made s) :
    ∃ s', T.convertInodeByMp ip s = .ok (T.mounted ip, s') ∧
      Held ref (some (T.mounted ip)) made s' ∧ s'.fs = s.fs := by
  unfold InodeTree.convertInodeByMp mounted
  cases hm : T.mounts.find? fun m => m.1 = ip with
  | none => exact ⟨s, rfl, h, rfl⟩
  | some m =>
    obtain ⟨s₁, hfree, h₁, hfs₁⟩ := h.free
    obtain ⟨s₂, hdup, h₂, hfs₂⟩ := h₁.dup m.2
    exact ⟨s₂, (bind_of_ok hfree).trans hdup, h₂, hfs₂.trans hfs₁⟩

/-- From a directory to the inode of a name in it, with the reference. -/
theorem goOn (h : Held ref (some ip) made s) (makes : ℕ → List UInt8 → σ → Bool)
    (hlook : T.lookup ip c s.fs = (some next, fs)) :
    ∃ s₁ s₂ s₃, T.lookupRef makes ip c { s with locked := Function.update s.locked ip true } =
        .ok (some next, { s₁ with locked := Function.update s₁.locked ip true }) ∧
      unlock ip { s₁ with locked := Function.update s₁.locked ip true } = .ok ((), s₁) ∧
      InodeM.free ip s₁ = .ok ((), s₂) ∧
      T.convertInodeByMp next s₂ = .ok (T.mounted next, s₃) ∧
      Held ref (some (T.mounted next)) (if makes ip c s.fs ∧ ref next = 0 ∧ next ≠ ip ∧ next ∉ made
        then ip :: made else made) s₃ ∧ s₃.fs = fs := by
  generalize hmade : (if makes ip c s.fs ∧ ref next = 0 ∧ next ≠ ip ∧ next ∉ made
    then ip :: made else made) = made'
  obtain ⟨s₁, hs₁⟩ : ∃ s₁ : InodeTable σ,
      s₁ = { s with fs := fs, ref := lookedUp (makes ip c s.fs) ip next s.ref } := ⟨_, rfl⟩
  -- both references are held between `Lookup` and `free`
  have href₁ : ∀ x, s₁.ref x = ref x + (if x = ip then 1 else 0) + (if x = next then 1 else 0) +
      made'.count x := by
    intro x
    have hx := h.ref x
    have hn := h.ref next
    simp only [Option.some.injEq, eq_comm (a := ip)] at hx hn
    rw [hs₁, ← hmade]
    simp only [lookedUp, h.ref_eq_zero]
    split
    · rw [List.count_cons]
      simp only [Function.update_apply, beq_iff_eq, eq_comm (a := ip)]
      split <;> split <;> simp_all <;> omega
    · simp only [Function.update_apply]
      split <;> simp_all
      omega
  have hl₁ : s₁.locked = s.locked := by rw [hs₁]
  have hq₁ : s₁.locked ip = false := by rw [hl₁, h.unlocked]
  have hone : 1 ≤ s₁.ref ip := by
    have := h.nonneg ip
    rw [href₁, if_pos rfl]
    split <;> omega
  obtain ⟨s₂, hfree, href₂, hl₂, hfs₂⟩ := free_ok hq₁ hone
  have h₂ : Held ref (some next) made' s₂ := by
    refine ⟨h.nonneg, fun x => ?_, fun x => by rw [hl₂, hl₁, h.unlocked]⟩
    have hx := href₁ x
    simp only [Option.some.injEq, eq_comm (a := next)]
    by_cases hip : x = ip
    · subst hip
      rw [href₂, Function.update_self, hx, if_pos rfl]
      ring
    · rw [href₂, Function.update_of_ne hip, hx, if_neg hip]
      ring
  obtain ⟨s₃, hconv, h₃, hfs₃⟩ := h₂.convertInodeByMp (T := T)
  refine ⟨s₁, s₂, s₃, ?_, unlock_ok hq₁, hfree, hconv, h₃, ?_⟩
  · rw [lookupRef_some (s := { s with locked := Function.update s.locked ip true }) hlook, hs₁]
  · rw [hfs₃, hfs₂, hs₁]

theorem leave (h : Held ref (some ip) made s) (name : List UInt8) :
    ∃ s', (do unlock ip; InodeM.free ip; return (none, name) : InodeM σ (Option ℕ × List UInt8))
        { s with locked := Function.update s.locked ip true } = .ok ((none, name), s') ∧
      Held ref none made s' ∧ s'.fs = s.fs := by
  obtain ⟨s', hfree, h', hfs⟩ := h.free
  refine ⟨s', ?_, h', hfs⟩
  rw [bind_of_ok (unlock_ok (h.unlocked ip)), bind_of_ok hfree]
  rfl

end Held

theorem pathNames_of_some (h : skipElement path = some (rest, element)) :
    pathNames behind path = Volume.bufferName behind element :: pathNames behind rest := by
  rw [pathNames, elements_of_some h, List.map_cons, pathNames]

theorem pathNames_of_none (h : skipElement path = none) : pathNames behind path = [] := by
  rw [pathNames, elements_of_none h, List.map_nil]

theorem pathNames_rest {b : List UInt8} (h : skipElement path = some (rest, element)) :
    pathNames b rest = [] ↔ rest.isEmpty := by
  rw [pathNames, List.map_eq_nil_iff, elements_rest h, List.isEmpty_iff]

/-- The parent of a name further on is found from the directory that the first name leads to. -/
theorem parentOf_cons (hcs : cs ≠ []) :
    T.parentOf ip (c :: cs) fs =
      if isDirMode (T.mode fs ip) then
        match T.lookup ip c fs with
        | (none, _) => none
        | (some next, fs) => T.parentOf (T.mounted next) cs fs
      else none := by
  rw [parentOf, if_neg (by simp), List.dropLast_cons_of_ne_nil hcs, lookups]
  cases isDirMode (T.mode fs ip) with
  | false => rfl
  | true =>
    rw [if_pos rfl, if_pos rfl]
    cases T.lookup ip c fs with
    | mk r fs =>
      cases r with
      | none => rfl
      | some next =>
        dsimp only
        rw [parentOf, if_neg hcs]

theorem parentOf_single :
    T.parentOf ip [c] fs = if isDirMode (T.mode fs ip) then some ip else none := by
  rw [parentOf, if_neg (by simp)]
  exact Option.filter_some ..

theorem parentOf_of_file (hdir : isDirMode (T.mode fs ip) = false) :
    T.parentOf ip (c :: cs) fs = none := by
  by_cases hnil : cs = []
  · rw [hnil, parentOf_single, hdir]
    rfl
  · rw [parentOf_cons hnil, hdir]
    rfl

theorem makesIn_of_file (hdir : isDirMode (T.mode fs ip) = false) (cs : List (List UInt8)) :
    T.makesIn makes ref ip cs fs made = made := by
  cases cs with
  | nil => rfl
  | cons d ds => rw [makesIn, hdir, if_neg (by simp)]

theorem walk_of_none (b : Bool) (h : skipElement path = none) :
    T.walk makes behind b ip path name = namexEnd b ip name := by
  rw [walk]
  split
  · rfl
  · rename_i hs
    rw [h] at hs
    cases hs

theorem walk_of_some (b : Bool) (h : skipElement path = some (rest, element)) :
    T.walk makes behind b ip path name =
      T.namexTurn makes b rest.isEmpty ip (Volume.bufferName behind element) fun ip =>
        T.walk makes behind b ip rest (Volume.bufferName behind element) := by
  rw [walk]
  split
  · rename_i hs
    rw [h] at hs
    cases hs
  · rename_i hs
    rw [h] at hs
    cases hs
    rfl

def lookedNames (nameiparent : Bool) (cs : List (List UInt8)) : List (List UInt8) :=
  if nameiparent then cs.dropLast else cs

theorem lookedNames_cons (b : Bool) (h : b = true → cs ≠ []) :
    lookedNames b (c :: cs) = c :: lookedNames b cs := by
  cases b with
  | true => exact List.dropLast_cons_of_ne_nil (h rfl)
  | false => rfl

/-- Behind the last name the walk is at its result. -/
theorem walk_ends (h : skipElement path = none) (b : Bool) (w : List UInt8)
    (hs : Held ref (some ip) made s) :
    ∃ r s', T.walk makes behind b ip path w s = .ok ((r, w), s') ∧ Held ref r made s' ∧
      (b = false → (r, s'.fs) = (some ip, s.fs)) ∧ (b = true → r = none) := by
  rw [walk_of_none b h, namexEnd]
  cases b with
  | true =>
    obtain ⟨s', hfree, h', -⟩ := hs.free
    refine ⟨none, s', ?_, h', by simp, fun _ => rfl⟩
    rw [if_pos rfl, bind_of_ok hfree]
    rfl
  | false => exact ⟨some ip, s, rfl, hs, fun _ => rfl, by simp⟩

/-- No name is looked up in what is not a directory. -/
theorem walk_file (h : skipElement path = some (rest, element)) (b : Bool) (w : List UInt8)
    (hs : Held ref (some ip) made s) (hdir : isDirMode (T.mode s.fs ip) = false) :
    ∃ s', T.walk makes behind b ip path w s = .ok ((none, Volume.bufferName behind element), s') ∧
      Held ref none made s' ∧ s'.fs = s.fs := by
  obtain ⟨s', hrun, h', hfs⟩ := hs.leave (Volume.bufferName behind element)
  refine ⟨s', ?_, h', hfs⟩
  rw [walk_of_some b h, namexTurn, bind_of_ok (lock_ok (hs.unlocked ip)), get_bind,
    if_pos (by simp [hdir])]
  exact hrun

theorem walk_parent (h : skipElement path = some (rest, element)) (w : List UInt8)
    (hs : Held ref (some ip) made s) (hdir : isDirMode (T.mode s.fs ip) = true)
    (hend : rest.isEmpty) : T.walk makes behind true ip path w s =
      .ok ((some ip, Volume.bufferName behind element), s) := by
  rw [walk_of_some true h, namexTurn, bind_of_ok (lock_ok (hs.unlocked ip)), get_bind,
    if_neg (by simp [hdir]), if_pos (by simpa using hend), bind_of_ok (unlock_ok (hs.unlocked ip))]
  rfl

theorem walk_missing (h : skipElement path = some (rest, element)) (b : Bool) (w : List UInt8)
    (hs : Held ref (some ip) made s) (hdir : isDirMode (T.mode s.fs ip) = true)
    (hend : ¬(b && rest.isEmpty) = true)
    (hlook : T.lookup ip (Volume.bufferName behind element) s.fs = (none, fs)) :
    ∃ s', T.walk makes behind b ip path w s = .ok ((none, Volume.bufferName behind element), s') ∧
      Held ref none made s' ∧ s'.fs = fs := by
  obtain ⟨s', hrun, h', hfs⟩ := (hs.withFs fs).leave (Volume.bufferName behind element)
  refine ⟨s', ?_, h', hfs⟩
  have hnone := lookupRef_none makes
    (s := { s with locked := Function.update s.locked ip true }) hlook
  rw [walk_of_some b h, namexTurn, bind_of_ok (lock_ok (hs.unlocked ip)), get_bind,
    if_neg (by simp [hdir]), if_neg (by simpa using hend), bind_of_ok hnone]
  exact hrun

/-- The walk goes on from the inode it has found. -/
theorem walk_goesOn (h : skipElement path = some (rest, element)) (b : Bool) (w : List UInt8)
    (hs : Held ref (some ip) made s) (hdir : isDirMode (T.mode s.fs ip) = true)
    (hend : ¬(b && rest.isEmpty) = true)
    (hlook : T.lookup ip (Volume.bufferName behind element) s.fs = (some next, fs)) :
    ∃ s₁, T.walk makes behind b ip path w s =
        T.walk makes behind b (T.mounted next) rest (Volume.bufferName behind element) s₁ ∧
      Held ref (some (T.mounted next))
        (if makes ip (Volume.bufferName behind element) s.fs ∧ ref next = 0 ∧ next ≠ ip ∧
          next ∉ made then ip :: made else made) s₁ ∧ s₁.fs = fs := by
  obtain ⟨s₁, s₂, s₃, hl, hu, hf, hm, h₃, hfs⟩ := hs.goOn makes hlook
  refine ⟨s₃, ?_, h₃, hfs⟩
  rw [walk_of_some b h, namexTurn, bind_of_ok (lock_ok (hs.unlocked ip)), get_bind,
    if_neg (by simp [hdir]), if_neg (by simpa using hend), bind_of_ok hl]
  dsimp only
  rw [bind_of_ok hu, bind_of_ok hf, bind_of_ok hm]

theorem walk_run (T : InodeTree σ) (makes : ℕ → List UInt8 → σ → Bool) (behind path : List UInt8)
    (b : Bool) (w : List UInt8) (hs : Held ref (some ip) made s) :
    ∃ r name' s', T.walk makes behind b ip path w s = .ok ((r, name'), s') ∧
      Held ref r (T.makesIn makes ref ip (lookedNames b (pathNames behind path)) s.fs made) s' ∧
      (b = false → (r, s'.fs) = T.lookups ip (pathNames behind path) s.fs) ∧
      (b = true → r = T.parentOf ip (pathNames behind path) s.fs ∧
        (r ≠ none → (pathNames behind path).getLast? = some name')) := by
  induction hn : path.length using Nat.strong_induction_on generalizing path s ip w made with
  | _ n ih =>
  cases h : skipElement path with
  | none =>
    obtain ⟨r, s', hrun, h', hres, hpar⟩ := walk_ends h b w hs
    rw [pathNames_of_none h]
    refine ⟨r, w, s', hrun, ?_, hres, fun hb => ?_⟩
    · cases b with
      | true => exact h'
      | false => exact h'
    · rw [hpar hb]
      exact ⟨rfl, by simp⟩
  | some p =>
    obtain ⟨rest, element⟩ := p
    have hlast := pathNames_rest (b := behind) h
    rw [pathNames_of_some h]
    cases hdir : isDirMode (T.mode s.fs ip) with
    | false =>
      obtain ⟨s', hrun, h', hfs⟩ := walk_file h b w hs hdir
      refine ⟨none, _, s', hrun, ?_, fun _ => ?_, fun _ => ⟨?_, by simp⟩⟩
      · rwa [makesIn_of_file hdir]
      · rw [lookups, hdir, hfs]
        rfl
      · rw [parentOf_of_file hdir]
    | true =>
      by_cases hend : (b && rest.isEmpty) = true
      · rw [Bool.and_eq_true] at hend
        obtain rfl : b = true := hend.1
        rw [hlast.mpr hend.2]
        refine ⟨some ip, _, s, walk_parent h w hs hdir hend.2, hs, by simp,
          fun _ => ⟨?_, fun _ => rfl⟩⟩
        rw [parentOf_single, hdir]
        rfl
      · have hne : b = true → pathNames behind rest ≠ [] := by
          intro hb hnil
          exact hend (by rw [hb, hlast.mp hnil]; rfl)
        rw [lookedNames_cons b hne, makesIn, hdir, if_pos rfl]
        cases hlook : T.lookup ip (Volume.bufferName behind element) s.fs with
        | mk found fs =>
        cases found with
        | none =>
          obtain ⟨s', hrun, h', hfs⟩ := walk_missing h b w hs hdir hend hlook
          refine ⟨none, _, s', hrun, h', fun _ => ?_, fun hb => ⟨?_, by simp⟩⟩
          · rw [lookups, hdir, if_pos rfl, hlook, hfs]
          · rw [parentOf_cons (hne hb), hdir, if_pos rfl, hlook]
        | some next =>
          obtain ⟨s₁, hgo, h₁, hfs⟩ := walk_goesOn h b w hs hdir hend hlook
          obtain ⟨r, name', s', hrun, h', hres, hpar⟩ :=
            ih _ (hn ▸ length_of_skipElement h) rest (Volume.bufferName behind element) h₁ rfl
          rw [hfs] at hres hpar h'
          refine ⟨r, name', s', hgo.trans hrun, h', fun hb => ?_, fun hb => ⟨?_, fun hr => ?_⟩⟩
          · rw [lookups, hdir, hlook]
            exact hres hb
          · rw [parentOf_cons (hne hb), hdir, hlook]
            exact (hpar hb).1
          · rw [List.getLast?_cons_of_ne_nil (hne hb)]
            exact (hpar hb).2 hr

theorem makesIn_never (ip : ℕ) (cs : List (List UInt8)) (fs : σ) :
    T.makesIn (fun _ _ _ => false) ref ip cs fs made = made := by
  induction cs generalizing ip fs with
  | nil => rfl
  | cons c cs ih =>
    rw [makesIn]
    split
    · cases T.lookup ip c fs with
      | mk r fs =>
        cases r with
        | none => rfl
        | some next => exact ih _ _
    · rfl

theorem Quiescent.held_pred (hq : Quiescent s) (hip : 1 ≤ s.ref ip) :
    Held (fun x => s.ref x - if x = ip then 1 else 0) (some ip) [] s := by
  refine ⟨fun x => ?_, fun x => ?_, hq.unlocked⟩
  · have := hq.nonneg x
    split
    · rename_i hx
      rw [hx]
      omega
    · omega
  · simp only [Option.some.injEq, eq_comm (a := ip), List.count_nil]
    split <;> simp

theorem Traded.of_held (hs : ∀ x, s.locked x = false)
    (h : Held (fun x => s.ref x - if x = ip then 1 else 0) r [] s') : Traded s s' ip r := by
  refine ⟨fun x => ?_, ?_⟩
  · rw [h.ref, List.count_nil]
    simp
  · funext x
    rw [h.unlocked, hs]

/-- `namex` from an inode whose reference is passed in: the fold of lookups over the names of the
path, or the directory of the last name. In every case the reference is gone, one to the result is
held and the other counts are as they were. -/
theorem namex_eq_lookups (T : InodeTree σ) (behind path name : List UInt8) (hq : Quiescent s)
    (hip : 1 ≤ s.ref ip) :
    (∃ r name' s', T.namex behind false ip path name s = .ok ((r, name'), s') ∧
        (r, s'.fs) = T.lookups ip (pathNames behind path) s.fs ∧ Traded s s' ip r) ∧
      ∃ r name' s', T.namex behind true ip path name s = .ok ((r, name'), s') ∧
        r = T.parentOf ip (pathNames behind path) s.fs ∧
        (r ≠ none → (pathNames behind path).getLast? = some name') ∧ Traded s s' ip r := by
  have hwalk := fun b => walk_run T (fun _ _ _ => false) behind path b name (hq.held_pred hip)
  simp only [makesIn_never] at hwalk
  constructor
  · obtain ⟨r, name', s', hrun, h, hres, -⟩ := hwalk false
    exact ⟨r, name', s', hrun, hres rfl, .of_held hq.unlocked h⟩
  · obtain ⟨r, name', s', hrun, h, -, hpar⟩ := hwalk true
    exact ⟨r, name', s', hrun, (hpar rfl).1, (hpar rfl).2, .of_held hq.unlocked h⟩

theorem namex_follows_buffer (T : InodeTree σ) {behind path : List UInt8} (name : List UInt8)
    (buffer : ByteMem) (h0 : 0 ∉ path) (hb : 0 ∉ behind) (hq : Quiescent s) (hip : 1 ≤ s.ref ip) :
    ∃ r name' s', T.namex behind false ip path name s = .ok ((r, name'), s') ∧
      (r, s'.fs) = T.lookups ip ((skipAll path buffer).map (heldName behind)) s.fs := by
  obtain ⟨r, name', s', hrun, -, hres, -⟩ :=
    walk_run T (fun _ _ _ => false) behind path false name (hq.held_pred hip)
  rw [skipAll_map_heldName h0 hb]
  exact ⟨r, name', s', hrun, hres rfl⟩

def oneFile : InodeTree Unit where
  mode _ ip := if ip = 0 then 0o040000 else 0o100000
  sz _ _ := 0
  lookup ip name fs := (if ip = 0 ∧ name = [0x61] then some 1 else none, fs)
  makes _ _ _ := true
  create _ _ _ fs := .ok (0, fs)
  mounts := []

def atRest : InodeTable Unit := ⟨fun _ => 1, fun _ => false, [], ()⟩

theorem quiescent_atRest : Quiescent atRest where
  unlocked _ := rfl
  nonneg _ := by simp [atRest]

theorem pathNames_slash_a (behind : List UInt8) : pathNames behind [slash, 0x61] = [[0x61]] := by
  rw [pathNames_of_some (show skipElement [slash, 0x61] = some ([], [0x61]) from rfl),
    pathNames_of_none (show skipElement [] = none from rfl)]
  rfl

theorem namex_finds_file :
    ∃ name' s', oneFile.namex [] false 0 [slash, 0x61] [] atRest = .ok ((some 1, name'), s') ∧
      Traded atRest s' 0 (some 1) := by
  obtain ⟨r, name', s', hrun, hres, htr⟩ :=
    (namex_eq_lookups oneFile [] [slash, 0x61] [] quiescent_atRest
      (show 1 ≤ atRest.ref 0 by decide)).1
  rw [pathNames_slash_a] at hres
  obtain rfl : r = some 1 := congrArg Prod.fst hres
  exact ⟨name', s', hrun, htr⟩

end InodeTree

namespace Volume

open InodeTree

variable (v : Volume) {ip : ℕ} {behind name : List UInt8}

def tree (makes : ℕ → List UInt8 → Bool) (create : ℕ → List UInt8 → ℕ → Kernel ℤ) :
    InodeTree Unit where
  mode _ ip := if v.isDir ip then 0o040000 else 0o100000
  sz _ _ := 0
  lookup ip name _ := (v.lookup ip name, ())
  makes ip name _ := makes ip name
  create dp name mode _ := return (← create dp name mode, ())
  mounts := v.mounts

theorem mounted_tree (makes : ℕ → List UInt8 → Bool)
    (create : ℕ → List UInt8 → ℕ → Kernel ℤ) (ip : ℕ) :
    (v.tree makes create).mounted ip = v.convertInodeByMp ip := by
  rw [mounted, convertInodeByMp]
  change (match v.mounts.find? fun m => m.1 = ip with | none => ip | some m => m.2) = _
  cases v.mounts.find? fun m => m.1 = ip <;> rfl

theorem walk_eq_lookups (makes : ℕ → List UInt8 → Bool)
    (create : ℕ → List UInt8 → ℕ → Kernel ℤ) (es : List (List UInt8)) :
    ((v.walk behind false ip es name).1, ()) =
      (v.tree makes create).lookups ip (es.map (bufferName behind)) () := by
  induction es generalizing ip name with
  | nil => rfl
  | cons e es ih =>
    have hdir : isDirMode ((v.tree makes create).mode () ip) = v.isDir ip := by
      cases hd : v.isDir ip <;> simp [tree, hd] <;> rfl
    have hlook : (v.tree makes create).lookup ip (bufferName behind e) () =
        (v.lookup ip (bufferName behind e), ()) := rfl
    rw [walk, List.map_cons, lookups, hdir, hlook]
    cases v.isDir ip with
    | false => rfl
    | true =>
      cases v.lookup ip (bufferName behind e) with
      | none => rfl
      | some next =>
        dsimp only
        rw [mounted_tree]
        exact ih

theorem namei_eq_lookups (makes : ℕ → List UInt8 → Bool)
    (create : ℕ → List UInt8 → ℕ → Kernel ℤ) (path : List UInt8) :
    (v.namei behind ip path, ()) = (v.tree makes create).lookups ip (pathNames behind path) () := by
  rw [namei_eq_walk]
  exact v.walk_eq_lookups makes create (elements path)

end Volume

end StartOS
