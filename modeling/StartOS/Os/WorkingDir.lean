import StartOS.Fs.PathWalk
import StartOS.Os.Descriptors
import StartOS.Os.ProcTable
import StartOS.Os.SlotFrame

/-! # The current directory

A task has two records of its current directory: `currentDir` is the path that
the older path-based file layer resolves names with, `cwd` the inode that
`VfsManager` starts from. `chdir` belongs to the older layer.
-/

namespace StartOS

open Hoare Relation

def maxPath : ℕ := 64

def dirPath (dir : ByteMem) : List UInt8 := (List.range (strnlen dir maxPath)).map dir

structure Spells (dir : ByteMem) (path : List UInt8) : Prop where
  ne_nul : 0 ∉ path
  bytes : ∀ j ≤ path.length, dir j = path.getD j 0

theorem Spells.tail {dir : ByteMem} {c : UInt8} {path : List UInt8} (h : Spells dir (c :: path)) :
    Spells (fun x => dir (x + 1)) path where
  ne_nul h₀ := h.ne_nul (List.mem_cons_of_mem c h₀)
  bytes j hj := h.bytes (j + 1) (Nat.succ_le_succ hj)

theorem Spells.ne_zero {dir : ByteMem} {path : List UInt8} (h : Spells dir path) {n : ℕ}
    (hn : n < path.length) : dir n ≠ 0 := by
  rw [h.bytes n hn.le, List.getD_eq_getElem _ _ hn]
  exact fun h₀ => h.ne_nul (h₀ ▸ List.getElem_mem hn)

theorem Spells.length_eq_zero {dir : ByteMem} {path : List UInt8} (h : Spells dir path) :
    dir path.length = 0 := by
  rw [h.bytes _ le_rfl, List.getD_eq_default _ _ le_rfl]

theorem strnlen_of_spells {dir : ByteMem} {path : List UInt8} {n : ℕ} (h : Spells dir path)
    (hn : path.length ≤ n) : strnlen dir n = path.length := by
  induction path generalizing dir n with
  | nil =>
    cases n with
    | zero => rfl
    | succ n => rw [strnlen, if_pos (show dir 0 = 0 from h.bytes 0 le_rfl), List.length_nil]
  | cons c path ih =>
    obtain ⟨n, rfl⟩ : ∃ m, n = m + 1 := Nat.exists_eq_succ_of_ne_zero (by
      rw [List.length_cons] at hn
      omega)
    have hc : dir 0 ≠ 0 := h.ne_zero (Nat.succ_pos _)
    rw [strnlen, if_neg hc, ih h.tail (Nat.le_of_succ_le_succ hn), List.length_cons]

theorem dirPath_of_spells {dir : ByteMem} {path : List UInt8} (h : Spells dir path)
    (hlen : path.length < maxPath) : dirPath dir = path := by
  rw [dirPath, strnlen_of_spells h hlen.le]
  refine List.ext_getElem (by simp) fun j h₁ h₂ => ?_
  rw [List.getElem_map, List.getElem_range, h.bytes j h₂.le, List.getD_eq_getElem _ _ h₂]

theorem spells_safestrcpy {dst src : ByteMem} {path : List UInt8} (h : Spells src path) :
    Spells (safestrcpy dst src (path.length + 1)) path := by
  refine ⟨h.ne_nul, fun j hj => ?_⟩
  have hlen : strnlen src (path.length + 1 - 1) = path.length := strnlen_of_spells h le_rfl
  rw [safestrcpy, hlen]
  by_cases hend : j = path.length
  · subst hend
    rw [ByteMem.fill_of_mem le_rfl (by split <;> omega), List.getD_eq_default _ _ le_rfl]
  · have hj' : j < path.length := lt_of_le_of_ne hj hend
    rw [ByteMem.fill_of_not_mem (.inl hj'), ByteMem.blit_of_mem (Nat.zero_le j) (by omega),
      Nat.sub_zero, h.bytes j hj]

theorem spells_cstring {path : List UInt8} (h : 0 ∉ path) : Spells (BinProgram.cstring path) path :=
  ⟨h, fun _ _ => rfl⟩

def absolutePath (curdir path : List UInt8) : List UInt8 :=
  let path := if path.take 2 = [0x2e, slash] then path.drop 2 else path
  if path.head? = some slash then path else curdir ++ path

theorem absolutePath_of_slash (curdir : List UInt8) {path : List UInt8}
    (h : path.head? = some slash) : absolutePath curdir path = path := by
  have htake : path.take 2 ≠ [0x2e, slash] := by
    rintro h2
    rw [← List.take_append_drop 2 path, h2] at h
    cases h
  simp only [absolutePath, if_neg htake, if_pos h]

/-- The kernel with the directories of its file systems; `fileTable` counts the handles of the
older file layer that are in use. -/
structure DirState where
  sys : System
  volume : Volume
  fileTable : ℕ

def closePath (path : List UInt8) : List UInt8 :=
  if path.getLast? = some slash then path else path ++ [slash]

/-- `vfs::chdir`. What the older layer finds at a path is `opens`: nothing, or whether it is a
directory. Paths live in buffers of `MAXPATH` bytes, and a handle stays taken when nothing is
found. -/
def chdir (opens : List UInt8 → Option Bool) (path : List UInt8) : StateT DirState Kernel ℤ := do
  let s ← get
  if s.fileTable ≥ nfile then throw (.panic "alloc file")
  let path := absolutePath (dirPath s.sys.myTask.currentDir) path
  if path.length ≥ maxPath then throw .fault
  match opens path with
  | none =>
    set { s with fileTable := s.fileTable + 1 }
    return -1
  | some false => return -1
  | some true =>
    let path := closePath path
    if path.length ≥ maxPath then throw .fault
    set { s with sys := s.sys.setProc s.sys.current { s.sys.myTask with
      currentDir := safestrcpy s.sys.myTask.currentDir (BinProgram.cstring path)
        (path.length + 1) } }
    return 0

/-- What `VfsManager::openat` needs of its surroundings: `Create` of the file systems, the bytes
behind a full name buffer and those of one that was not written. -/
structure Creation where
  create : Volume → ℕ → List UInt8 → ℕ → Kernel (ℤ × Volume)
  behind : List UInt8
  junk : List UInt8

/-- What `Create` of `c` does: from then on a lookup in that directory of a name that `answers` goes
with `c` may find the new entry. Every other lookup finds what it found, and directories and mount
points stay. -/
structure Creation.Adds (k : Creation) (answers : List UInt8 → List UInt8 → Prop) : Prop where
  lookup : ∀ {v dp c mode r v'}, k.create v dp c mode = .ok (r, v') → 0 ≤ r →
    ∀ ip d, ¬(ip = dp ∧ answers c d) → v'.lookup ip d = v.lookup ip d
  isDir : ∀ {v dp c mode r v'}, k.create v dp c mode = .ok (r, v') → 0 ≤ r →
    ∀ ip, v.isDir ip = true → v'.isDir ip = true
  mounts : ∀ {v dp c mode r v'}, k.create v dp c mode = .ok (r, v') → 0 ≤ r →
    v'.mounts = v.mounts

/-- The path search of `VfsManager::openat` from the directory `dp`. With `O_CREATE` the element
that `nameiparent` ends at is created in `dp`. -/
def openInode (k : Creation) (v : Volume) (dp : ℕ) (path : List UInt8) (flags mode : ℕ) :
    Kernel (Option ℕ × Volume) :=
  if flags &&& 0x40 ≠ 0 then do
    let name := (v.namex k.behind true dp path k.junk).2
    let (r, v) ← k.create v dp name mode
    if r < 0 then .error (.panic "can't create file")
    return (v.namei k.behind dp name, v)
  else return (v.namei k.behind dp path, v)

/-- `VfsManager::openat` of the running process without a directory. -/
def DirState.openat (s : DirState) (k : Creation) (path : List UInt8) (flags mode : ℕ) :
    Kernel (Option ℕ × Volume) :=
  match s.sys.myTask.cwd with
  | none => .error .fault
  | some c => openInode k s.volume (pathBase c path) path flags mode

def System.switch (s : System) (i : ℕ) : System :=
  { (s.setProc s.current { s.myTask with state := .runnable }).setProc i
      { s.taskTable i with state := .running } with current := i }

/-- The calls that have to do with the current directory, and a switch to another process. -/
inductive DirCall
  | chdir (opens : List UInt8 → Option Bool) (path : List UInt8)
  | openat (dir : Option ℕ) (path : List UInt8) (flags mode : ℕ)
  | fork
  | exec (path : List UInt8)
  | switch (i : ℕ)

inductive DirStep (k : Creation) : DirState → DirCall → DirState → Prop
  | chdir (s : DirState) {opens : List UInt8 → Option Bool} {path : List UInt8} {r : ℤ}
      {s' : DirState} (hpath : 0 ∉ path) (h : chdir opens path s = .ok (r, s')) :
      DirStep k s (.chdir opens path) s'
  | openat (s : DirState) {c fp sz md flags mode : ℕ} {dir ip : Option ℕ} {path : List UInt8} {r : ℤ}
      {v : Volume} {sys : System} (hcwd : s.sys.myTask.cwd = some c)
      (hfind : openInode k s.volume (dir.getD (pathBase c path)) path flags mode = .ok (ip, v))
      (hopen : sysOpenat fp (ip.map fun ip => ⟨ip, sz, md⟩) flags s.sys = .ok (r, sys)) :
      DirStep k s (.openat dir path flags mode) { s with sys := sys, volume := v }
  | fork (s : DirState) {r : ℤ} {sys : System} (h : fork s.sys = .ok (r, sys)) :
      DirStep k s .fork { s with sys := sys }
  | exec (s : DirState) {c : ℕ} {path : List UInt8} {argv env : ℕ → Option (List UInt8)}
      {junk : ℕ → ℕ} {r : ℤ} {sys : System} (hcwd : s.sys.myTask.cwd = some c)
      (h : exec (s.volume.namei k.behind (pathBase c path) path) path argv env junk s.sys =
        .ok (r, sys)) : DirStep k s (.exec path) { s with sys := sys }
  | switch (s : DirState) {i : ℕ} (hi : (s.sys.taskTable i).state = .runnable) :
      DirStep k s (.switch i) { s with sys := s.sys.switch i }

namespace DirState

variable {k : Creation} {answers : List UInt8 → List UInt8 → Prop} {s s' s₀ : DirState} {i : ℕ}

/-- The first process has been given its directory and no other process exists. -/
structure Booted (s : DirState) : Prop where
  current : s.sys.current = initTask
  running : (s.sys.taskTable initTask).state = .running
  others : ∀ i ≠ initTask, (s.sys.taskTable i).state = .unused
  cwd : (s.sys.taskTable initTask).cwd = some rootInode
  currentDir : (s.sys.taskTable initTask).currentDir = fun j => if j = 0 then slash else 0

def Agree (k : Creation) (s : DirState) : Prop :=
  ∀ i, (s.sys.taskTable i).state.Live → ∃ c, (s.sys.taskTable i).cwd = some c ∧
    s.volume.namei k.behind rootInode (dirPath (s.sys.taskTable i).currentDir) = some c

/-- In the directory `dp` the path of no current directory looks up a name that an entry of `c` could
answer for. -/
def Clear (k : Creation) (answers : List UInt8 → List UInt8 → Prop) (s : DirState) (dp : ℕ)
    (c : List UInt8) : Prop :=
  ∀ i, (s.sys.taskTable i).state.Live → ∀ pre e post,
    elements (dirPath (s.sys.taskTable i).currentDir) = pre ++ e :: post →
      (s.volume.walk k.behind false rootInode pre []).1 = some dp →
        ¬answers c (Volume.bufferName k.behind e)

/-- The call does not need the inode to follow: a `chdir` that succeeds ends in the directory
`cwd` already is, and a creation is clear of the paths of the current directories. -/
def Meets (k : Creation) (answers : List UInt8 → List UInt8 → Prop) (s : DirState)
    (call : DirCall) : Prop :=
  match call with
  | .chdir opens path =>
    let path := absolutePath (dirPath s.sys.myTask.currentDir) path
    opens path = some true → s.volume.namei k.behind rootInode path = s.sys.myTask.cwd
  | .openat dir path flags _ => flags &&& 0x40 ≠ 0 → ∀ c, s.sys.myTask.cwd = some c →
    let dp := dir.getD (pathBase c path)
    s.Clear k answers dp (s.volume.namex k.behind true dp path k.junk).2
  | _ => True

def homeOf (p : Proc) : ProcState × Option ℕ × ByteMem := (p.state, p.cwd, p.currentDir)

theorem blind_homeOf : System.Blind homeOf := fun _ _ _ _ => rfl

/-- A task that lives is at home: its inode is the root, and so is what its path names. -/
structure AtHome (k : Creation) (v : Volume) (p : Proc) (path : List UInt8) : Prop where
  cwd : p.cwd = some rootInode
  spells : Spells p.currentDir path
  short : path.length < maxPath
  last : path.getLast? = some slash
  root : v.namei k.behind rootInode path = some rootInode

/-- Every task that lives is at home, and the current one runs. -/
structure Homed (k : Creation) (s : DirState) : Prop where
  running : (s.sys.taskTable s.sys.current).state = .running
  home : ∀ i, (s.sys.taskTable i).state.Live → ∃ path, AtHome k s.volume (s.sys.taskTable i) path

theorem AtHome.dirPath {v : Volume} {p : Proc} {path : List UInt8} (h : AtHome k v p path) :
    dirPath p.currentDir = path := dirPath_of_spells h.spells h.short

theorem AtHome.congr {v : Volume} {p q : Proc} {path : List UInt8} (h : AtHome k v p path)
    (hq : homeOf q = homeOf p) : AtHome k v q path := by
  simp only [homeOf, Prod.mk.injEq] at hq
  exact ⟨hq.2.1.trans h.cwd, hq.2.2 ▸ h.spells, h.short, h.last, h.root⟩

theorem Homed.agree (h : Homed k s) : Agree k s := by
  intro i hi
  obtain ⟨path, hp⟩ := h.home i hi
  exact ⟨rootInode, hp.cwd, by rw [hp.dirPath, hp.root]⟩

theorem Homed.alike {sys : System} (h : Homed k s) (ha : System.Alike homeOf s.sys sys) :
    Homed k { s with sys := sys } := by
  have hstate : ∀ i, (sys.taskTable i).state = (s.sys.taskTable i).state := fun i =>
    congrArg Prod.fst (ha.slots i)
  refine ⟨?_, fun i hi => ?_⟩
  · rw [ha.current, hstate]
    exact h.running
  · rw [hstate] at hi
    obtain ⟨path, hp⟩ := h.home i hi
    exact ⟨path, hp.congr (ha.slots i)⟩

theorem alike_sysOpenat {sys₀ : System} (fp : ℕ) (found : Option FoundInode) (flags : ℕ) :
    Keeps (System.Alike homeOf sys₀) (sysOpenat fp found flags) := by
  have hregister : ∀ fp', Keeps (System.Alike homeOf sys₀) (registerFileHandle fp' (-1)) := by
    intro fp'
    refine Keeps.bind .get fun s => ?_
    cases s.freeDescriptor 0 with
    | none => exact .throw _
    | some i =>
      exact .bind (.bind .get fun s => System.alike_modifyProc fun p => blind_homeOf.task p _)
        fun _ => .pure _
  cases found with
  | none => exact .pure _
  | some ip =>
    refine Keeps.bind (Keeps.bind (.bind .get fun s => ?_) fun _ => .pure (some fp)) fun r => ?_
    · refine Keeps.ite (.bind (.throw _) fun _ => ?_) ?_ <;>
        exact System.alike_modify fun s => ⟨rfl, fun _ => rfl⟩
    · cases r with
      | none => exact .pure _
      | some fp' => exact hregister fp'

/-- `fork` leaves the table alone, or gives a slot that was free the directory of the caller. -/
theorem fork_homeOf {sys sys' : System} {r : ℤ} (h : fork sys = .ok (r, sys')) :
    System.Alike homeOf sys sys' ∨ ∃ c, (sys.taskTable c).state = .unused ∧
      sys'.current = sys.current ∧
      (∀ i ≠ c, homeOf (sys'.taskTable i) = homeOf (sys.taskTable i)) ∧
      (c ≠ sys.current → (sys'.taskTable c).cwd = sys.myTask.cwd ∧ ∃ old,
        (sys'.taskTable c).currentDir = safestrcpy old sys.myTask.currentDir
          (strnlen sys.myTask.currentDir 64 + 1)) := by
  rw [fork] at h
  obtain ⟨r', s₁, halloc, h₁⟩ := bind_eq_ok.mp h
  obtain ⟨hs₁, hr'⟩ := System.allocTask_alike blind_homeOf halloc
  cases r' with
  | none =>
    cases h₁
    exact .inl hs₁
  | some c =>
    have hc : (sys.taskTable c).state = .unused := by
      rcases hr' with hr' | hr'
      · have hfree := List.find?_some hr'.symm
        exact of_decide_eq_true hfree
      · cases hr'
    obtain ⟨⟨⟩, s₂, hmem, h₂⟩ := bind_eq_ok.mp h₁
    have hs₂ : System.Alike homeOf sys s₂ := System.alike_copyMemory c hs₁ hmem
    obtain ⟨⟨⟩, s₃, hrec, h₃⟩ := bind_eq_ok.mp h₂
    have hs₃ : s₃.current = s₂.current ∧ (s₃.taskTable c).cwd = s₂.myTask.cwd ∧
        ∀ i ≠ c, homeOf (s₃.taskTable i) = homeOf (s₂.taskTable i) := by
      rw [copyRecord, get_bind] at hrec
      cases hcwd : s₂.myTask.cwd with
      | none =>
        simp only [hcwd] at hrec
        cases hrec
      | some ip =>
        simp only [hcwd] at hrec
        cases hrec
        refine ⟨rfl, ?_, fun i hi => ?_⟩
        · exact congrArg Proc.cwd System.setProc_self
        · exact congrArg homeOf (System.setProc_of_ne hi)
    rw [get_bind] at h₃
    obtain ⟨⟨⟩, s₄, hfiles, h₄⟩ := bind_eq_ok.mp h₃
    obtain ⟨⟨⟩, s₅, hvmas, h₅⟩ := bind_eq_ok.mp h₄
    have hs₅ : System.Alike homeOf s₃ s₅ :=
      System.alike_dupVmas blind_homeOf _ c _ (System.alike_dupFiles blind_homeOf _ c _ .refl hfiles)
        hvmas
    obtain ⟨⟨⟩, s₆, hname, h₆⟩ := bind_eq_ok.mp h₅
    cases h₆
    rw [nameChild, get_bind] at hname
    cases hname
    have hcur : s₅.current = sys.current := hs₅.current.trans (hs₃.1.trans hs₂.current)
    have hslots : ∀ i ≠ c, homeOf (s₅.taskTable i) = homeOf (sys.taskTable i) := fun i hi =>
      (hs₅.slots i).trans ((hs₃.2.2 i hi).trans (hs₂.slots i))
    refine .inr ⟨c, hc, hcur, fun i hi => ?_, fun hne => ⟨?_, (s₅.taskTable c).currentDir, ?_⟩⟩
    · exact (congrArg homeOf (System.setProc_of_ne hi)).trans (hslots i hi)
    · have h₂ : s₂.myTask.cwd = sys.myTask.cwd := by
        have := congrArg (fun x => x.2.1) (hs₂.slots sys.current)
        rw [System.myTask, hs₂.current]
        exact this
      have h₅ : (s₅.taskTable c).cwd = (s₃.taskTable c).cwd :=
        congrArg (fun x => x.2.1) (hs₅.slots c)
      exact (congrArg Proc.cwd System.setProc_self).trans (h₅.trans (hs₃.2.1.trans h₂))
    · have hme : s₅.myTask.currentDir = sys.myTask.currentDir := by
        have := congrArg (fun x => x.2.2) (hslots sys.current (Ne.symm hne))
        rw [System.myTask, hcur]
        exact this
      refine (congrArg Proc.currentDir System.setProc_self).trans ?_
      rw [← hme]

theorem Homed.fork {r : ℤ} {sys : System} (h : Homed k s) (hf : fork s.sys = .ok (r, sys)) :
    Homed k { s with sys := sys } := by
  rcases fork_homeOf hf with ha | ⟨c, hc, hcur, hothers, hchild⟩
  · exact h.alike ha
  have hne : c ≠ s.sys.current := by
    rintro rfl
    rw [h.running] at hc
    cases hc
  obtain ⟨hcwd, old, hdir⟩ := hchild hne
  refine ⟨?_, fun i hi => ?_⟩
  · rw [hcur]
    exact (congrArg Prod.fst (hothers _ (Ne.symm hne))).trans h.running
  · by_cases hic : i = c
    · subst hic
      obtain ⟨path, hp⟩ := h.home s.sys.current (h.running ▸ ProcState.live_running)
      refine ⟨path, hcwd.trans hp.cwd, ?_, hp.short, hp.last, hp.root⟩
      have hlen : strnlen s.sys.myTask.currentDir 64 = path.length :=
        strnlen_of_spells hp.spells hp.short.le
      rw [hdir, hlen]
      exact spells_safestrcpy hp.spells
    · have hstate : (sys.taskTable i).state = (s.sys.taskTable i).state :=
        congrArg Prod.fst (hothers i hic)
      rw [hstate] at hi
      obtain ⟨path, hp⟩ := h.home i hi
      exact ⟨path, hp.congr (hothers i hic)⟩

theorem Homed.switch (h : Homed k s) (hi : (s.sys.taskTable i).state = .runnable) :
    Homed k { s with sys := s.sys.switch i } := by
  have hne : i ≠ s.sys.current := by
    rintro rfl
    rw [h.running] at hi
    cases hi
  have hself : (s.sys.switch i).taskTable i = { s.sys.taskTable i with state := .running } :=
    System.setProc_self
  have hhome : ∀ j, ((s.sys.switch i).taskTable j).state.Live →
      (s.sys.taskTable j).state.Live ∧ ((s.sys.switch i).taskTable j).cwd = (s.sys.taskTable j).cwd ∧
      ((s.sys.switch i).taskTable j).currentDir = (s.sys.taskTable j).currentDir := by
    intro j hj
    by_cases hji : j = i
    · subst hji
      rw [hself, hi]
      exact ⟨ProcState.live_runnable, rfl, rfl⟩
    by_cases hjc : j = s.sys.current
    · have hcur : (s.sys.switch i).taskTable j = { s.sys.myTask with state := .runnable } := by
        rw [System.switch]
        refine (System.setProc_of_ne hji).trans ?_
        rw [hjc, System.setProc_self]
      rw [hcur, hjc, h.running]
      exact ⟨ProcState.live_running, rfl, rfl⟩
    · have hother : (s.sys.switch i).taskTable j = s.sys.taskTable j :=
        (System.setProc_of_ne hji).trans (System.setProc_of_ne hjc)
      rw [hother] at hj ⊢
      exact ⟨hj, rfl, rfl⟩
  refine ⟨congrArg Proc.state hself, fun j hj => ?_⟩
  obtain ⟨hlive, hcwd, hdir⟩ := hhome j hj
  obtain ⟨path, hp⟩ := h.home j hlive
  exact ⟨path, hcwd.trans hp.cwd, hdir ▸ hp.spells, hp.short, hp.last, hp.root⟩

theorem chdir_cases {opens : List UInt8 → Option Bool} {path : List UInt8} {r : ℤ}
    (h : chdir opens path s = .ok (r, s')) :
    let a := absolutePath (dirPath s.sys.myTask.currentDir) path
    (r = -1 ∧ ∃ n, s' = { s with fileTable := n }) ∨
      (r = 0 ∧ opens a = some true ∧ (closePath a).length < maxPath ∧
        s' = { s with sys := s.sys.setProc s.sys.current { s.sys.myTask with
          currentDir := safestrcpy s.sys.myTask.currentDir (BinProgram.cstring (closePath a))
            ((closePath a).length + 1) } }) := by
  intro a
  rw [chdir, get_bind] at h
  split at h
  · cases h
  dsimp only at h
  split at h
  · cases h
  cases hopen : opens a with
  | none =>
    simp only [a] at hopen
    rw [hopen] at h
    cases h
    exact .inl ⟨rfl, _, rfl⟩
  | some d =>
    simp only [a] at hopen
    rw [hopen] at h
    cases d with
    | false =>
      cases h
      exact .inl ⟨rfl, s.fileTable, rfl⟩
    | true =>
      dsimp only at h
      split at h
      · cases h
      rename_i hlen
      cases h
      exact .inr ⟨rfl, rfl, Nat.lt_of_not_le hlen, rfl⟩

theorem elements_closePath (path : List UInt8) : elements (closePath path) = elements path := by
  rw [closePath]
  split
  · rfl
  · rw [elements_append_slash, elements_of_none (show skipElement [] = none from rfl),
      List.append_nil]

theorem getLast_closePath (path : List UInt8) : (closePath path).getLast? = some slash := by
  rw [closePath]
  split
  · assumption
  · exact List.getLast?_concat ..

theorem Homed.chdir {opens : List UInt8 → Option Bool} {path : List UInt8} {r : ℤ} (h : Homed k s)
    (hpath : 0 ∉ path) (hc : chdir opens path s = .ok (r, s'))
    (hm : Meets k answers s (.chdir opens path)) : Homed k s' := by
  rcases chdir_cases hc with ⟨-, n, rfl⟩ | ⟨-, hopen, hlen, rfl⟩
  · exact ⟨h.running, h.home⟩
  obtain ⟨cur, hcur⟩ := h.home s.sys.current (h.running ▸ ProcState.live_running)
  have hdir : dirPath s.sys.myTask.currentDir = cur := hcur.dirPath
  have hname := hm hopen
  rw [hdir] at hopen hlen hname ⊢
  refine ⟨?_, fun i hi => ?_⟩
  · exact (congrArg Proc.state System.setProc_self).trans h.running
  by_cases hic : i = s.sys.current
  · subst hic
    refine ⟨closePath (absolutePath cur path), ?_⟩
    have hnul : 0 ∉ closePath (absolutePath cur path) := by
      have habs : 0 ∉ absolutePath cur path := by
        have hdrop : (0 : UInt8) ∉ path.drop 2 := fun h₀ => hpath (List.mem_of_mem_drop h₀)
        have happ : ∀ path', (0 : UInt8) ∉ path' → (0 : UInt8) ∉ cur ++ path' := fun path' h₀ h₁ =>
          (List.mem_append.mp h₁).elim hcur.spells.ne_nul h₀
        rw [absolutePath]
        split <;> split
        · exact hdrop
        · exact happ _ hdrop
        · exact hpath
        · exact happ _ hpath
      rw [closePath]
      split
      · exact habs
      · exact fun h₀ => (List.mem_append.mp h₀).elim habs (by decide)
    constructor
    · exact (congrArg Proc.cwd System.setProc_self).trans hcur.cwd
    · refine (congrArg Proc.currentDir System.setProc_self).symm ▸ ?_
      exact spells_safestrcpy (spells_cstring hnul)
    · exact hlen
    · exact getLast_closePath _
    · rw [Volume.namei_eq_walk, elements_closePath, ← Volume.namei_eq_walk, hname]
      exact hcur.cwd
  · have hother : (s.sys.setProc s.sys.current { s.sys.myTask with
        currentDir := safestrcpy s.sys.myTask.currentDir
          (BinProgram.cstring (closePath (absolutePath cur path)))
          ((closePath (absolutePath cur path)).length + 1) }).taskTable i = s.sys.taskTable i :=
      System.setProc_of_ne hic
    rw [hother] at hi ⊢
    exact h.home i hi

/-- A walk over elements for none of which the new entry could answer leads where it led. -/
theorem walk_adds {v v' : Volume} {dp ip jp mode : ℕ} {c name : List UInt8}
    {es : List (List UInt8)} {r : ℤ} (hk : k.Adds answers)
    (hmade : k.create v dp c mode = .ok (r, v')) (hr : 0 ≤ r)
    (hclear : ∀ pre e post, es = pre ++ e :: post → (v.walk k.behind false ip pre []).1 = some dp →
      ¬answers c (Volume.bufferName k.behind e))
    (h : (v.walk k.behind false ip es name).1 = some jp) :
    (v'.walk k.behind false ip es name).1 = some jp := by
  induction es generalizing ip name with
  | nil => exact h
  | cons e es ih =>
    have hsame := hk.lookup hmade hr ip (Volume.bufferName k.behind e) fun hans =>
      hclear [] e es rfl (congrArg some hans.1) hans.2
    have hmp : ∀ x, v'.convertInodeByMp x = v.convertInodeByMp x := fun x => by
      rw [Volume.convertInodeByMp, Volume.convertInodeByMp, hk.mounts hmade hr]
    rw [Volume.walk] at h ⊢
    cases hdir : v.isDir ip with
    | false =>
      rw [hdir] at h
      cases h
    | true =>
      rw [hdir] at h
      rw [hk.isDir hmade hr ip hdir, hsame]
      simp only [Bool.not_true, Bool.false_eq_true, if_false, Bool.false_and] at h ⊢
      cases hl : v.lookup ip (Volume.bufferName k.behind e) with
      | none =>
        rw [hl] at h
        cases h
      | some next =>
        rw [hl] at h
        dsimp only at h ⊢
        rw [hmp]
        refine ih (fun pre e' post he hpre => ?_) h
        refine hclear (e :: pre) e' post (by rw [he]; rfl) ?_
        rw [Volume.walk, hdir]
        simp only [Bool.not_true, Bool.false_eq_true, if_false, Bool.false_and, hl]
        exact Volume.walk_name.trans hpre

/-- A search that returns leaves the volume as it is or has created an entry. -/
theorem openInode_ok {v v' : Volume} {dp flags mode : ℕ} {path : List UInt8} {ip : Option ℕ}
    (h : openInode k v dp path flags mode = .ok (ip, v')) :
    v' = v ∨ flags &&& 0x40 ≠ 0 ∧ ∃ r, 0 ≤ r ∧
      k.create v dp (v.namex k.behind true dp path k.junk).2 mode = .ok (r, v') := by
  rw [openInode] at h
  split at h
  · rename_i hf
    dsimp only at h
    cases hc : k.create v dp (v.namex k.behind true dp path k.junk).2 mode with
    | error e =>
      rw [hc] at h
      cases h
    | ok q =>
      obtain ⟨r, v₁⟩ := q
      rw [hc] at h
      by_cases hr : r < 0
      · simp only [Bind.bind, Except.bind, if_pos hr] at h
        cases h
      · simp only [Bind.bind, Except.bind, if_neg hr] at h
        cases h
        exact .inr ⟨hf, r, not_lt.mp hr, rfl⟩
  · cases h
    exact .inl rfl

theorem Homed.openat {ip dir : Option ℕ} {v : Volume} {c fp sz md flags mode : ℕ}
    {path : List UInt8} {r : ℤ} {sys : System} (h : Homed k s) (hk : k.Adds answers)
    (hcwd : s.sys.myTask.cwd = some c)
    (hfind : openInode k s.volume (dir.getD (pathBase c path)) path flags mode = .ok (ip, v))
    (hopen : sysOpenat fp (ip.map fun ip => ⟨ip, sz, md⟩) flags s.sys = .ok (r, sys))
    (hm : Meets k answers s (.openat dir path flags mode)) :
    Homed k { s with sys := sys, volume := v } := by
  have ha := alike_sysOpenat _ _ _ .refl hopen
  have hsys : Homed k { s with sys := sys } := h.alike ha
  refine ⟨hsys.running, fun i hi => ?_⟩
  have hstate : (sys.taskTable i).state = (s.sys.taskTable i).state :=
    congrArg Prod.fst (ha.slots i)
  rw [hstate] at hi
  obtain ⟨cur, hp⟩ := h.home i hi
  have hroot : v.namei k.behind rootInode cur = some rootInode := by
    rcases openInode_ok hfind with rfl | ⟨hf, r, hr, hmade⟩
    · exact hp.root
    · have hclear := hm hf c hcwd i hi
      rw [hp.dirPath] at hclear
      have hold := hp.root
      rw [Volume.namei_eq_walk] at hold ⊢
      exact walk_adds hk hmade hr hclear hold
  exact ⟨cur, (AtHome.mk hp.cwd hp.spells hp.short hp.last hroot).congr (ha.slots i)⟩

theorem Homed.step {call : DirCall} (h : Homed k s) (hk : k.Adds answers) (hs : DirStep k s call s')
    (hm : Meets k answers s call) : Homed k s' := by
  cases hs with
  | chdir hpath hc => exact h.chdir hpath hc hm
  | openat hcwd hfind hopen => exact h.openat hk hcwd hfind hopen hm
  | fork hf => exact h.fork hf
  | exec hcwd he =>
    exact h.alike (System.alike_exec blind_homeOf (fun _ _ _ => rfl) _ _ _ _ _ .refl he)
  | switch hi => exact h.switch hi

end DirState

end StartOS
