import Mathlib.Data.List.DropRight
import StartOS.Kernel.Basic

/-! # Path resolution

`namex` takes a path apart with `SkipElement` and looks one element after the
other up, from a directory on. What the mounted file systems answer is a
`Volume`; a path is the characters before its terminator.
-/

namespace StartOS

def slash : UInt8 := 0x2f

def maxFileName : ℕ := 35

def skipElement (path : List UInt8) : Option (List UInt8 × List UInt8) :=
  let s := path.dropWhile (· = slash)
  if s = [] then none
  else some ((s.dropWhile (· ≠ slash)).dropWhile (· = slash), s.takeWhile (· ≠ slash))

theorem length_of_skipElement {path rest name : List UInt8}
    (h : skipElement path = some (rest, name)) : rest.length < path.length := by
  rw [skipElement] at h
  split at h
  · cases h
  rename_i hne
  cases h
  have hpath := (List.dropWhile_suffix (l := path) (· = slash)).length_le
  cases hs : path.dropWhile (· = slash) with
  | nil => exact absurd hs hne
  | cons c cs =>
    have hc : c ≠ slash := by
      have := List.head_dropWhile_not (p := (· = slash)) (l := path) (by rw [hs]; simp)
      simpa [hs] using this
    rw [hs] at hpath
    have hdrop : List.dropWhile (· ≠ slash) (c :: cs) = List.dropWhile (· ≠ slash) cs :=
      List.dropWhile_cons_of_pos (by simpa using hc)
    rw [hdrop]
    have h₁ := (List.dropWhile_suffix (l := cs) (· ≠ slash)).length_le
    have h₂ := (List.dropWhile_suffix (l := cs.dropWhile (· ≠ slash)) (· = slash)).length_le
    rw [List.length_cons] at hpath
    omega

/-- The elements of a path, as `SkipElement` finds them one after the other. -/
def elements (path : List UInt8) : List (List UInt8) :=
  match _h : skipElement path with
  | none => []
  | some (rest, name) => name :: elements rest
termination_by path.length
decreasing_by exact length_of_skipElement _h

theorem elements_of_none {path : List UInt8} (h : skipElement path = none) : elements path = [] := by
  rw [elements]
  split
  · rfl
  · rename_i hs
    rw [h] at hs
    cases hs

theorem elements_of_some {path rest name : List UInt8} (h : skipElement path = some (rest, name)) :
    elements path = name :: elements rest := by
  rw [elements]
  split
  · rename_i hs
    rw [h] at hs
    cases hs
  · rename_i hs
    rw [h] at hs
    cases hs
    rfl

theorem skipElement_eq_none {path : List UInt8} :
    skipElement path = none ↔ path.dropWhile (· = slash) = [] := by
  rw [skipElement]
  split
  · rename_i h
    exact iff_of_true rfl h
  · rename_i h
    exact iff_of_false (by simp) h

theorem elements_dropWhile (path : List UInt8) :
    elements (path.dropWhile (· = slash)) = elements path := by
  have hskip : skipElement (path.dropWhile (· = slash)) = skipElement path := by
    simp only [skipElement, List.dropWhile_idempotent]
  cases h : skipElement path with
  | none => rw [elements_of_none h, elements_of_none (hskip.trans h)]
  | some r => rw [elements_of_some h, elements_of_some (hskip.trans h)]

theorem elements_rest {path rest name : List UInt8} (h : skipElement path = some (rest, name)) :
    elements rest = [] ↔ rest = [] := by
  have hrest : rest.dropWhile (· = slash) = rest := by
    rw [skipElement] at h
    split at h
    · cases h
    · cases h
      exact List.dropWhile_idempotent ..
  constructor
  · intro he
    cases hs : skipElement rest with
    | none => rwa [skipElement_eq_none, hrest] at hs
    | some r =>
      rw [elements_of_some hs] at he
      cases he
  · rintro rfl
    exact elements_of_none rfl

theorem takeWhile_append_slash (s q : List UInt8) :
    (s ++ slash :: q).takeWhile (· ≠ slash) = s.takeWhile (· ≠ slash) := by
  rw [List.takeWhile_append, List.takeWhile_cons_of_neg (by simp), List.append_nil]
  split
  · rename_i h
    exact ((List.takeWhile_prefix _).eq_of_length h).symm
  · rfl

theorem dropWhile_append_slash (s q : List UInt8) :
    (s ++ slash :: q).dropWhile (· ≠ slash) = s.dropWhile (· ≠ slash) ++ slash :: q := by
  rw [List.dropWhile_append, List.dropWhile_cons_of_neg (by simp)]
  split
  · rename_i h
    rw [List.isEmpty_iff.mp h, List.nil_append]
  · rfl

theorem elements_append_slash (p q : List UInt8) :
    elements (p ++ slash :: q) = elements p ++ elements q := by
  induction hn : p.length using Nat.strong_induction_on generalizing p with
  | _ n ih =>
  have hq : (slash :: q).dropWhile (· = slash) = q.dropWhile (· = slash) :=
    List.dropWhile_cons_of_pos (by simp)
  cases h : skipElement p with
  | none =>
    rw [elements_of_none h, List.nil_append, ← elements_dropWhile, List.dropWhile_append,
      skipElement_eq_none.mp h, hq]
    exact elements_dropWhile q
  | some r =>
    obtain ⟨rest, name⟩ := r
    have hlen : rest.length < n := hn ▸ length_of_skipElement h
    have hskip : skipElement (p ++ slash :: q) = some (if rest = [] then q.dropWhile (· = slash)
        else rest ++ slash :: q, name) := by
      rw [skipElement] at h
      split at h
      · cases h
      rename_i hne
      cases h
      have hfront : (p ++ slash :: q).dropWhile (· = slash) =
          p.dropWhile (· = slash) ++ slash :: q := by
        rw [List.dropWhile_append, if_neg (by simpa using hne)]
      rw [skipElement, hfront, if_neg (by simp), takeWhile_append_slash, dropWhile_append_slash,
        List.dropWhile_append, hq]
      simp only [List.isEmpty_iff]
    rw [elements_of_some h, elements_of_some hskip, List.cons_append]
    congr 1
    split
    · rename_i hnil
      subst hnil
      rw [elements_dropWhile, elements_of_none (show skipElement [] = none from rfl), List.nil_append]
    · exact ih _ hlen rest rfl

/-- `root_`, the root directory of the FAT volume. -/
def rootInode : ℕ := 0

/-- What the file systems of `VfsManager` answer: `entry` is the inode that a scan of a directory
ends at, `mounts` the inodes `origin` and `target` of the mount points. Nothing is mounted on the
root directory. -/
structure Volume where
  isDir : ℕ → Bool
  isDev : ℕ → Bool
  parent : ℕ → ℕ
  entry : ℕ → List UInt8 → Option ℕ
  mounts : List (ℕ × ℕ)
  root_isDir : isDir rootInode = true
  root_isDev : isDev rootInode = false
  root_mounts : ∀ m ∈ mounts, m.1 ≠ rootInode

def pathBase (cwd : ℕ) (path : List UInt8) : ℕ :=
  if path.head? = some slash then rootInode else cwd

namespace Volume

variable (v : Volume)

/-- `Lookup`. A FAT directory knows itself and its parent, a directory of devices does not. -/
def lookup (ip : ℕ) (name : List UInt8) : Option ℕ :=
  if v.isDev ip then v.entry ip name
  else if name = [0x2e] then some ip
  else if name = [0x2e, 0x2e] then some (v.parent ip)
  else v.entry ip name

def convertInodeByMp (ip : ℕ) : ℕ :=
  match v.mounts.find? fun m => m.1 = ip with
  | some m => m.2
  | none => ip

/-- What is read from the buffer `name[kMaxFileName]` after an element was copied into it. A long
element fills the buffer and is followed by the bytes `behind` it. -/
def bufferName (behind element : List UInt8) : List UInt8 :=
  if element.length ≥ maxFileName then element.take maxFileName ++ behind else element

/-- `namex`. The second part of the result is the buffer `name`. -/
def namex (behind : List UInt8) (nameiparent : Bool) (ip : ℕ) (path name : List UInt8) :
    Option ℕ × List UInt8 :=
  match _h : skipElement path with
  | none => (if nameiparent then none else some ip, name)
  | some (rest, element) =>
    let name := bufferName behind element
    if !v.isDir ip then (none, name)
    else if nameiparent && rest.isEmpty then (some ip, name)
    else
      match v.lookup ip name with
      | none => (none, name)
      | some next => namex behind nameiparent (v.convertInodeByMp next) rest name
termination_by path.length
decreasing_by exact length_of_skipElement _h

def namei (behind : List UInt8) (dir : ℕ) (path : List UInt8) : Option ℕ :=
  (v.namex behind false dir path []).1

/-- The walk of `namex` over elements. -/
def walk (behind : List UInt8) (nameiparent : Bool) : ℕ → List (List UInt8) → List UInt8 →
    Option ℕ × List UInt8
  | ip, [], name => (if nameiparent then none else some ip, name)
  | ip, element :: es, _ =>
    let name := bufferName behind element
    if !v.isDir ip then (none, name)
    else if nameiparent && es.isEmpty then (some ip, name)
    else
      match v.lookup ip name with
      | none => (none, name)
      | some next => walk behind nameiparent (v.convertInodeByMp next) es name

theorem namex_eq_walk (behind : List UInt8) (b : Bool) (ip : ℕ) (path name : List UInt8) :
    v.namex behind b ip path name = v.walk behind b ip (elements path) name := by
  induction hn : path.length using Nat.strong_induction_on generalizing path ip name with
  | _ n ih =>
  rw [namex]
  split
  · rename_i h
    rw [elements_of_none h, walk]
  · rename_i rest element h
    have hempty : rest.isEmpty = (elements rest).isEmpty := by
      rw [Bool.eq_iff_iff, List.isEmpty_iff, List.isEmpty_iff, elements_rest h]
    rw [elements_of_some h, walk, ← hempty]
    split
    · rfl
    split
    · rfl
    dsimp only
    cases v.lookup ip (bufferName behind element) with
    | none => rfl
    | some next => exact ih _ (hn ▸ length_of_skipElement h) _ rest _ rfl

variable {v} {behind name name' : List UInt8} {b : Bool} {ip ip' : ℕ} {es fs : List (List UInt8)}

theorem namei_eq_walk (behind : List UInt8) (ip : ℕ) (path : List UInt8) :
    v.namei behind ip path = (v.walk behind false ip (elements path) []).1 := by
  rw [namei, namex_eq_walk]

theorem walk_name : (v.walk behind b ip es name).1 = (v.walk behind b ip es name').1 := by
  cases es <;> rfl

end Volume

end StartOS
