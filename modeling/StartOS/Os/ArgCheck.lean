import StartOS.Os.Descriptors

/-! # Arguments of system calls

The calls that take a descriptor or a pid, with every index into `openFiles` and
`taskTable` and every use of a `struct file` pointer made visible: an index
outside of its array and a null pointer stop the call with their own error. What
an inode or a pipe does with a transfer is left to an argument.
-/

namespace StartOS

open Hoare

/-- What may go wrong with an argument, next to the ways a kernel function does not return. -/
inductive Misuse
  | openFiles (i : ℤ)
  | taskTable (i : ℤ)
  | nullFile
  | halt (h : Halt)
  deriving DecidableEq, Repr

abbrev CheckedM := StateT System (Except Misuse)

namespace CheckedM

def lift {α : Type} (m : OsM α) : CheckedM α := fun s => (m s).mapError .halt

/-- `task->openFiles[fd]`. -/
def openFile (fd : ℤ) : CheckedM (Option ℕ) := do
  if fd < 0 ∨ fd ≥ nofile then throw (.openFiles fd)
  return (← get).myTask.task.openFiles fd.toNat

/-- `task->openFiles[fd] = fp`. -/
def setOpenFile (fd : ℤ) (fp : Option ℕ) : CheckedM Unit := do
  if fd < 0 ∨ fd ≥ nofile then throw (.openFiles fd)
  lift (setDescriptor fd.toNat fp)

def getFileByfd (fd : ℤ) : CheckedM (Option ℕ) := do
  if fd < 0 ∨ fd > nofile then return none
  openFile fd

def file (fp : Option ℕ) : CheckedM ℕ :=
  match fp with
  | none => throw .nullFile
  | some fp => return fp

def registerFileHandle (fp : ℕ) (fd : ℤ) : CheckedM ℤ := do
  if fd > nfile then return -1
  if fd < 0 then lift (StartOS.registerFileHandle fp fd)
  else if (← openFile fd).isNone then
    setOpenFile fd (some fp)
    return fd
  else return -1

/-- The `struct file` at `fp`. -/
def deref (fp : ℕ) : CheckedM FileHandle := do
  match (← get).handles fp with
  | none => throw (.halt .fault)
  | some f => return f

def modifyFile (fp : ℕ) (g : FileHandle → FileHandle) : CheckedM Unit :=
  modify fun s => { s with handles := Function.update s.handles fp ((s.handles fp).map g) }

/-- `fp->offset += n`. -/
def advance (fp : ℕ) (n : ℤ) : CheckedM Unit :=
  modifyFile fp fun f => { f with offset := addInt f.offset n }

def sysClose (fd : ℤ) : CheckedM ℤ := do
  if fd < 0 then return -1
  let fp ← file (← getFileByfd fd)
  lift (fileClose fp)
  setOpenFile fd none
  return 0

/-- `sys_read`, with what the inode or the pipe reads. -/
def sysRead (io : FileHandle → OsM ℤ) (fd : ℤ) : CheckedM ℤ := do
  match ← getFileByfd fd with
  | none => throw (.halt (.panic "fp is nullptr"))
  | some fp =>
    let f ← deref fp
    if f.type = .pipe ∨ f.type = .inode then
      let nread ← lift (io f)
      advance fp nread
      return nread
    else throw (.halt (.panic "unknown file type"))

/-- `sys_write`. The offset of an inode file moves twice. -/
def sysWrite (io : FileHandle → OsM ℤ) (fd : ℤ) : CheckedM ℤ := do
  match ← getFileByfd fd with
  | none => throw (.halt (.panic "fp is nullptr"))
  | some fp =>
    let f ← deref fp
    if !f.writable then return -1
    if f.type = .pipe then
      let nwrite ← lift (io f)
      advance fp nwrite
      return nwrite
    else if f.type = .inode then
      let nwrite ← lift (io f)
      advance fp nwrite
      modifyFile fp fun f => { f with size := max (addInt f.offset nwrite) f.size }
      advance fp nwrite
      return nwrite
    else throw (.halt (.panic "unknown file type"))

def sysDup (fd : ℤ) : CheckedM ℤ := do
  match ← getFileByfd fd with
  | none => return -1
  | some fp => registerFileHandle (← lift (fileDup fp)) (-1)

def sysDup3 (oldfd newfd : ℤ) : CheckedM ℤ := do
  let fp ← file (← getFileByfd oldfd)
  let fp ← lift (fileDup fp)
  match ← openFile newfd with
  | none => pure ()
  | some old =>
    lift (fileClose old)
    setOpenFile newfd none
  let ansfd ← registerFileHandle fp newfd
  if ansfd < 0 then lift (fileClose fp)
  return ansfd

def sysFcntl (fd cmd newfd : ℤ) : CheckedM ℤ := do
  if cmd = 2 ∨ cmd = 4 then return 0
  let fp ← file (← getFileByfd fd)
  if cmd = 3 then return (← deref fp).mode
  let fp ← lift (fileDup fp)
  registerFileHandle fp (← lift (allocFd newfd))

/-- Where `sys_lseek` goes. -/
def seekTo (f : FileHandle) (offset whence : ℤ) : CheckedM ℤ := do
  if whence = 2 then return toInt32 (f.size + offset)
  else if whence = 0 then return offset
  else if whence = 1 then return toInt32 (f.offset + offset)
  else throw (.halt (.panic "only handler SEEK END"))

def sysLseek (fd offset whence : ℤ) : CheckedM ℤ := do
  match ← getFileByfd fd with
  | none => return -1
  | some fp =>
    let f ← deref fp
    let nowOff ← seekTo f offset whence
    if nowOff < 0 then return -1
    modifyFile fp fun f => { f with offset := nowOff.toNat }
    return nowOff

/-- The `struct kstat` that `sys_fstat` fills; the mode is a `short`. -/
def kstatBytes (f : FileHandle) : ByteMem :=
  let kst : ByteMem := fun _ => 0
  let kst := (kst.writeLE 0 8 1).writeLE 48 8 f.size
  (kst.writeLE 20 4 1).writeLE 16 4 (if f.mode < 2 ^ 15 then f.mode else f.mode + 2 ^ 32 - 2 ^ 16)

/-- `sys_fstat` behind `argaddr`. -/
def sysFstat (fd : ℤ) (kstAddr : ℕ) : CheckedM ℤ := do
  match ← getFileByfd fd with
  | none => return -1
  | some fp =>
    let f ← deref fp
    let s ← get
    lift (onRam fun ram => ram.copyout s.myTask.task.pagetable kstAddr (kstatBytes f) 128)

/-- `sys_getdents64`, with what the file system reads. -/
def sysGetdents64 (io : FileHandle → OsM ℤ) (fd : ℤ) : CheckedM ℤ := do
  let f ← deref (← file (← getFileByfd fd))
  if !f.readable then return -1
  lift (io f)

/-- `taskTable[pid]`. -/
def taskAt (pid : ℤ) : CheckedM Proc := do
  if pid < 0 ∨ pid ≥ ntask then throw (.taskTable pid)
  return (← get).taskTable pid.toNat

/-- `sys_kill`. The signal is not looked at. -/
def sysKill (pid _sig : ℤ) : CheckedM ℤ := do
  let p ← taskAt pid
  if p.state = .zombie ∨ p.state = .unused then return -1
  lift (modifyProc pid.toNat fun p => { p with killed := true })
  return 0

/-- `sys_wait4` up to the point where it sleeps, which is `none`. -/
def sysWait4 (pid : ℤ) (uaddr : ℕ) : CheckedM (Option ℤ) := do
  if pid = -1 then lift (wait uaddr)
  else if pid ≥ ntask then return some (-1)
  else
    let _ ← taskAt pid
    lift (wait4 pid uaddr)

end CheckedM

inductive ArgCall
  | close (fd : ℤ)
  | read (io : FileHandle → OsM ℤ) (fd : ℤ)
  | write (io : FileHandle → OsM ℤ) (fd : ℤ)
  | dup (fd : ℤ)
  | dup3 (oldfd newfd : ℤ)
  | fcntl (fd cmd newfd : ℤ)
  | lseek (fd offset whence : ℤ)
  | fstat (fd : ℤ) (kstAddr : ℕ)
  | getdents64 (io : FileHandle → OsM ℤ) (fd : ℤ)
  | kill (pid sig : ℤ)
  | wait4 (pid : ℤ) (uaddr : ℕ)

namespace ArgCall

open CheckedM

/-- The call, with `none` where it goes to sleep. -/
def run : ArgCall → CheckedM (Option ℤ)
  | close fd => do return some (← CheckedM.sysClose fd)
  | read io fd => do return some (← CheckedM.sysRead io fd)
  | write io fd => do return some (← CheckedM.sysWrite io fd)
  | dup fd => do return some (← CheckedM.sysDup fd)
  | dup3 oldfd newfd => do return some (← CheckedM.sysDup3 oldfd newfd)
  | fcntl fd cmd newfd => do return some (← CheckedM.sysFcntl fd cmd newfd)
  | lseek fd offset whence => do return some (← CheckedM.sysLseek fd offset whence)
  | fstat fd kstAddr => do return some (← CheckedM.sysFstat fd kstAddr)
  | getdents64 io fd => do return some (← CheckedM.sysGetdents64 io fd)
  | kill pid sig => do return some (← CheckedM.sysKill pid sig)
  | wait4 pid uaddr => CheckedM.sysWait4 pid uaddr

end ArgCall

def System.Open (s : System) (fd : ℤ) : Prop :=
  0 ≤ fd ∧ fd < nofile ∧ s.myTask.task.openFiles fd.toNat ≠ none

def InTable (pid : ℤ) : Prop := 0 ≤ pid ∧ pid < ntask

namespace ArgCall

def Bad (s : System) : ArgCall → Prop
  | close fd | read _ fd | write _ fd | dup fd | dup3 fd _ | fcntl fd _ _ | lseek fd _ _
  | fstat fd _ | getdents64 _ fd => ¬s.Open fd
  | kill pid _ => ¬InTable pid
  | wait4 pid _ => pid ≠ -1 ∧ ¬InTable pid

/-- The call indexes no array outside of its bounds and follows no null pointer, and with a bad
argument returns -1 and changes nothing. -/
structure Checked (c : ArgCall) (s : System) : Prop where
  openFiles : ∀ i, c.run s ≠ .error (.openFiles i)
  taskTable : ∀ i, c.run s ≠ .error (.taskTable i)
  nullFile : c.run s ≠ .error .nullFile
  refuses : c.Bad s → c.run s = .ok (some (-1), s)

/-- A descriptor without a `struct file` that is in use. -/
def Stale (s : System) (fd : ℤ) : Prop :=
  ∀ fp f, s.myTask.task.openFiles fd.toNat = some fp → s.handles fp = some f → f.ref < 1

/-- Where a call checks its arguments. `dup` stops at a stale file before `dup3` looks at its
second descriptor. -/
def Good (s : System) : ArgCall → Prop
  | close fd => fd < 0 ∨ s.Open fd
  | read _ fd | write _ fd | fcntl fd _ _ | getdents64 _ fd => s.Open fd
  | dup fd | lseek fd _ _ | fstat fd _ => fd ≠ nofile
  | dup3 oldfd newfd => s.Open oldfd ∧ (0 ≤ newfd ∧ newfd < nofile ∨ Stale s oldfd)
  | kill pid _ => InTable pid
  | wait4 pid _ => -1 ≤ pid

end ArgCall

namespace CheckedM

variable {α β : Type} {m m' : CheckedM α} {f : α → CheckedM β} {s s' : System} {fd : ℤ} {a : α}

def SaneAt (s : System) (m : CheckedM α) : Prop := ∀ ⦃e⦄, m s = .error e → ∃ h, e = .halt h

def Sane (m : CheckedM α) : Prop := ∀ s, SaneAt s m

theorem SaneAt.of_ok (h : m s = .ok (a, s')) : SaneAt s m := by
  intro e he
  rw [h] at he
  cases he

theorem SaneAt.bind (h : SaneAt s m) (hf : ∀ a s', m s = .ok (a, s') → SaneAt s' (f a)) :
    SaneAt s (m >>= f) := by
  intro e he
  cases hm : m s with
  | error e' =>
    rw [bind_of_error hm] at he
    cases he
    exact h hm
  | ok r =>
    rw [bind_of_ok hm] at he
    exact hf r.1 r.2 hm he

namespace Sane

theorem pure (a : α) : Sane (pure a) := by
  intro s e h
  cases h

theorem get : Sane (get : CheckedM System) := by
  intro s e h
  cases h

theorem modify (g : System → System) : Sane (modify g : CheckedM Unit) := by
  intro s e h
  cases h

theorem halt (h : Halt) : Sane (throw (.halt h) : CheckedM α) := by
  intro s e he
  cases he
  exact ⟨h, rfl⟩

theorem lift (m : OsM α) : Sane (lift m) := by
  intro s e he
  rw [CheckedM.lift] at he
  cases hm : m s with
  | error h =>
    rw [hm] at he
    cases he
    exact ⟨h, rfl⟩
  | ok r =>
    rw [hm] at he
    cases he

theorem bind (h : Sane m) (hf : ∀ a, Sane (f a)) : Sane (m >>= f) := by
  intro s
  exact SaneAt.bind (h s) fun a s' _ => hf a s'

theorem ite {c : Prop} [Decidable c] (h : Sane m) (h' : Sane m') : Sane (if c then m else m') := by
  split
  · exact h
  · exact h'

theorem deref (fp : ℕ) : Sane (deref fp) := by
  refine .bind .get fun s => ?_
  cases s.handles fp with
  | none => exact .halt _
  | some f => exact .pure f

theorem openFile (h₀ : 0 ≤ fd) (h₁ : fd < nofile) : Sane (openFile fd) := by
  intro s e he
  rw [CheckedM.openFile, if_neg (by omega)] at he
  cases he

theorem setOpenFile {fp : Option ℕ} (h₀ : 0 ≤ fd) (h₁ : fd < nofile) : Sane (setOpenFile fd fp) := by
  rw [CheckedM.setOpenFile, if_neg (by omega)]
  exact .lift _

theorem registerFileHandle (fp : ℕ) (fd : ℤ) : Sane (registerFileHandle fp fd) := by
  rw [CheckedM.registerFileHandle]
  split
  · exact .pure _
  · rename_i hle
    split
    · exact .lift _
    · rename_i hneg
      have hlt : fd < nofile := by
        have h₁ : nfile = 100 := rfl
        have h₂ : nofile = 120 := rfl
        omega
      refine .bind (.openFile (by omega) hlt) fun fp => .ite ?_ (.pure _)
      exact .bind (.setOpenFile (by omega) hlt) fun _ => .pure _

end Sane

theorem file_some {fp : ℕ} : file (some fp) s = .ok (fp, s) := rfl

section Lookup

variable {rest : Option ℕ → CheckedM α} {e : Misuse}

theorem openFile_eq (h₀ : 0 ≤ fd) (h₁ : fd < nofile) :
    openFile fd s = .ok (s.myTask.task.openFiles fd.toNat, s) := by
  rw [openFile, if_neg (by omega)]
  rfl

theorem getFileByfd_eq (h₀ : 0 ≤ fd) (h₁ : fd < nofile) :
    CheckedM.getFileByfd fd s = .ok (s.myTask.task.openFiles fd.toNat, s) := by
  rw [CheckedM.getFileByfd, if_neg (by omega)]
  exact openFile_eq h₀ h₁

theorem getFileByfd_last : CheckedM.getFileByfd nofile s = .error (.openFiles nofile) := rfl

theorem getFileByfd_closed (h : ¬s.Open fd) (hlast : fd ≠ nofile) :
    CheckedM.getFileByfd fd s = .ok (none, s) := by
  by_cases hout : fd < 0 ∨ fd > nofile
  · rw [CheckedM.getFileByfd, if_pos hout]
    rfl
  · have hnone : s.myTask.task.openFiles fd.toNat = none := by
      by_contra hne
      exact h ⟨by omega, by omega, hne⟩
    rw [getFileByfd_eq (by omega) (by omega), hnone]

theorem getFileByfd_bind_open (h : s.Open fd) :
    ∃ fp, s.myTask.task.openFiles fd.toNat = some fp ∧
      (CheckedM.getFileByfd fd >>= rest) s = rest (some fp) s := by
  obtain ⟨h₀, h₁, hne⟩ := h
  obtain ⟨fp, hfp⟩ := Option.ne_none_iff_exists'.mp hne
  refine ⟨fp, hfp, ?_⟩
  rw [bind_of_ok (getFileByfd_eq h₀ h₁), hfp]

theorem SaneAt.getFileByfd_bind (h : s.Open fd) (hrest : ∀ fp, Sane (rest (some fp))) :
    SaneAt s (CheckedM.getFileByfd fd >>= rest) := by
  obtain ⟨fp, -, he⟩ := getFileByfd_bind_open h
  intro e herr
  rw [he] at herr
  exact hrest fp s herr

theorem getFileByfd_bind_error (h : ¬s.Open fd) (hnull : rest none s = .error e) :
    ∃ e, (CheckedM.getFileByfd fd >>= rest) s = .error e := by
  by_cases hlast : fd = nofile
  · rw [hlast]
    exact ⟨_, bind_of_error getFileByfd_last⟩
  · exact ⟨e, (bind_of_ok (getFileByfd_closed h hlast)).trans hnull⟩

end Lookup

section Unchecked

/-! Where the arguments are checked the calls are those of the descriptors. -/

theorem lift_bind (m : OsM α) (f : α → OsM β) : lift (m >>= f) = lift m >>= fun a => lift (f a) := by
  funext s
  rw [lift, bind_apply, bind_apply, lift]
  cases m s with
  | error e => rfl
  | ok r => rfl

theorem fileByfd_eq (h : fd ≠ nofile) : fileByfd fd s =
    .ok (if fd < 0 ∨ fd > nofile then none else s.myTask.task.openFiles fd.toNat, s) := by
  have hm : StartOS.getFileByfd fd s.machine =
      .ok (if fd < 0 ∨ fd > nofile then none else s.myTask.task.openFiles fd.toNat, s.machine) := by
    rw [StartOS.getFileByfd]
    split
    · rfl
    · rfl
  rw [fileByfd, if_neg h, onMachine, get_bind, hm]
  exact congrArg (fun s' => Except.ok (_, s')) s.setMachine_machine

theorem getFileByfd_eq_lift (h : fd ≠ nofile) :
    CheckedM.getFileByfd fd s = lift (fileByfd fd) s := by
  rw [lift, fileByfd_eq h, CheckedM.getFileByfd]
  split
  · rfl
  · exact openFile_eq (by omega) (by omega)

theorem registerFileHandle_eq_lift {fp : ℕ} :
    CheckedM.registerFileHandle fp fd = lift (StartOS.registerFileHandle fp fd) := by
  funext s
  by_cases hle : fd > nfile
  · rw [CheckedM.registerFileHandle, if_pos hle, StartOS.registerFileHandle, if_pos hle]
    rfl
  by_cases hneg : fd < 0
  · rw [CheckedM.registerFileHandle, if_neg hle, if_pos hneg]
  have hlt : fd < nofile := by
    have h₁ : nfile = 100 := rfl
    have h₂ : nofile = 120 := rfl
    omega
  rw [CheckedM.registerFileHandle, if_neg hle, if_neg hneg, bind_of_ok (openFile_eq (by omega) hlt),
    lift, StartOS.registerFileHandle, if_neg hle, if_neg hneg, get_bind]
  split
  · rw [CheckedM.setOpenFile, if_neg (by omega)]
    rfl
  · rfl

theorem sysDup_eq_lift (h : fd ≠ nofile) : CheckedM.sysDup fd s = lift (StartOS.sysDup fd) s := by
  rw [StartOS.sysDup, lift_bind, CheckedM.sysDup, bind_apply, bind_apply, getFileByfd_eq_lift h]
  congr 1
  funext r
  cases r.1 with
  | none => rfl
  | some fp =>
    dsimp only
    rw [lift_bind]
    simp only [registerFileHandle_eq_lift]

theorem fileByfd_open (ho : s.Open fd) : ∃ fp, CheckedM.getFileByfd fd s = .ok (some fp, s) ∧
    fileByfd fd s = .ok (some fp, s) := by
  obtain ⟨h₀, h₁, hne⟩ := ho
  obtain ⟨fp, hfp⟩ := Option.ne_none_iff_exists'.mp hne
  refine ⟨fp, ?_, ?_⟩
  · rw [getFileByfd_eq h₀ h₁, hfp]
  · rw [fileByfd_eq (by omega), if_neg (by omega), hfp]

theorem sysFcntl_eq_lift {cmd newfd : ℤ} (ho : s.Open fd) :
    CheckedM.sysFcntl fd cmd newfd s = lift (StartOS.sysFcntl fd cmd newfd) s := by
  obtain ⟨fp, hc, hk⟩ := fileByfd_open ho
  rw [CheckedM.sysFcntl, lift, StartOS.sysFcntl]
  by_cases hcmd : cmd = 2 ∨ cmd = 4
  · rw [if_pos hcmd, if_pos hcmd]
    rfl
  rw [if_neg hcmd, if_neg hcmd, bind_of_ok hc, bind_of_ok file_some, bind_of_ok hk]
  dsimp only
  by_cases hmode : cmd = 3
  · rw [if_pos hmode, if_pos hmode, get_bind]
    cases hf : s.handles fp with
    | none =>
      have hd : deref fp s = .error (.halt .fault) := by
        rw [deref, get_bind, hf]
        rfl
      exact bind_of_error hd
    | some f =>
      have hd : deref fp s = .ok (f, s) := by
        rw [deref, get_bind, hf]
        rfl
      exact bind_of_ok hd
  · rw [if_neg hmode, if_neg hmode, ← lift, lift_bind]
    simp only [lift_bind, registerFileHandle_eq_lift]

theorem sysDup3_eq_lift {newfd : ℤ} (ho : s.Open fd) (h₀ : 0 ≤ newfd) (h₁ : newfd < nofile) :
    CheckedM.sysDup3 fd newfd s = lift (StartOS.sysDup3 fd newfd) s := by
  obtain ⟨fp, hc, hk⟩ := fileByfd_open ho
  rw [CheckedM.sysDup3, bind_of_ok hc, bind_of_ok file_some, lift, StartOS.sysDup3, bind_of_ok hk]
  dsimp only
  rw [← lift, lift_bind]
  refine congrFun (congrArg _ (funext fun fp => funext fun s => ?_)) s
  have hset : CheckedM.setOpenFile newfd none = lift (setDescriptor newfd.toNat none) := by
    rw [CheckedM.setOpenFile, if_neg (by omega)]
  rw [bind_of_ok (openFile_eq h₀ h₁), lift, if_neg (by omega), get_bind, ← lift]
  have hlast : ∀ ansfd : ℤ, (do
      if ansfd < 0 then lift (fileClose fp)
      return ansfd : CheckedM ℤ) = lift (do
      if ansfd < 0 then fileClose fp
      return ansfd) := by
    intro ansfd
    split
    · rw [lift_bind]
      rfl
    · rfl
  cases s.myTask.task.openFiles newfd.toNat with
  | none =>
    simp only [registerFileHandle_eq_lift, lift_bind, hlast]
  | some old =>
    simp only [registerFileHandle_eq_lift, lift_bind, hset, hlast]

theorem sysClose_eq_lift (h : fd < 0 ∨ s.Open fd) :
    CheckedM.sysClose fd s = lift (StartOS.sysClose fd) s := by
  by_cases hneg : fd < 0
  · rw [CheckedM.sysClose, if_pos hneg, lift, StartOS.sysClose, if_pos hneg]
    rfl
  have ho := h.resolve_left hneg
  obtain ⟨fp, hc, hk⟩ := fileByfd_open ho
  have hset : CheckedM.setOpenFile fd none = lift (setDescriptor fd.toNat none) := by
    obtain ⟨h₀, h₁, -⟩ := ho
    rw [CheckedM.setOpenFile, if_neg (by omega)]
  have hby : lift (closeByfd fd) s = lift (fileClose fp) s := by
    rw [lift, closeByfd, bind_of_ok hk, ← lift]
  rw [CheckedM.sysClose, if_neg hneg, bind_of_ok hc, bind_of_ok file_some, hset, StartOS.sysClose,
    if_neg hneg, lift_bind, bind_apply, bind_apply, hby]
  simp only [lift_bind]
  rfl

end Unchecked

end CheckedM

namespace ArgCall

open CheckedM

variable {s : System} {c : ArgCall}

theorem Checked.of_sane (h : SaneAt s c.run) (hr : c.Bad s → c.run s = .ok (some (-1), s)) :
    c.Checked s := by
  constructor
  · intro i he
    obtain ⟨h, hh⟩ := h he
    cases hh
  · intro i he
    obtain ⟨h, hh⟩ := h he
    cases hh
  · intro he
    obtain ⟨h, hh⟩ := h he
    cases hh
  · exact hr

theorem not_checked_of_error (hb : c.Bad s) (he : ∃ e, c.run s = .error e) : ¬c.Checked s := by
  intro h
  obtain ⟨e, he⟩ := he
  rw [h.refuses hb] at he
  cases he

section Some

variable {m : CheckedM ℤ}

theorem saneAt_some (h : SaneAt s m) : SaneAt s (do return some (← m)) :=
  h.bind fun _ s' _ => Sane.pure _ s'

theorem error_some (h : ∃ e, m s = .error e) : ∃ e, (do return some (← m)) s = .error e := by
  obtain ⟨e, h⟩ := h
  exact ⟨e, bind_of_error h⟩

end Some

section Descriptor

variable {fd : ℤ} {rest : Option ℕ → CheckedM ℤ}

theorem checked_of_open (hrun : c.run = do return some (← CheckedM.getFileByfd fd >>= rest))
    (h : s.Open fd) (hb : ¬c.Bad s) (hrest : ∀ fp, Sane (rest (some fp))) : c.Checked s := by
  refine .of_sane ?_ fun hbad => absurd hbad hb
  rw [hrun]
  exact saneAt_some (.getFileByfd_bind h hrest)

theorem not_checked_of_closed {e : Misuse}
    (hrun : c.run = do return some (← CheckedM.getFileByfd fd >>= rest))
    (h : ¬s.Open fd) (hb : c.Bad s) (hnull : rest none s = .error e) : ¬c.Checked s := by
  refine not_checked_of_error hb ?_
  rw [hrun]
  exact error_some (getFileByfd_bind_error h hnull)

/-- A call that answers a null pointer with -1 still looks behind the last descriptor. -/
theorem checked_iff_of_refuses
    (hrun : c.run = do return some (← CheckedM.getFileByfd fd >>= rest))
    (hb : c.Bad s ↔ ¬s.Open fd) (hnull : rest none s = .ok (-1, s))
    (hrest : ∀ fp, Sane (rest (some fp))) : c.Checked s ↔ fd ≠ nofile := by
  constructor
  · rintro h rfl
    refine h.openFiles nofile ?_
    rw [hrun]
    exact bind_of_error (bind_of_error getFileByfd_last)
  · intro hlast
    by_cases ho : s.Open fd
    · exact checked_of_open hrun ho (fun h => hb.mp h ho) hrest
    · have hret : c.run s = .ok (some (-1), s) := by
        rw [hrun]
        exact bind_of_ok ((bind_of_ok (getFileByfd_closed ho hlast)).trans hnull)
      exact .of_sane (.of_ok hret) fun _ => hret

end Descriptor

theorem checked_read_iff {io : FileHandle → OsM ℤ} {fd : ℤ} :
    (read io fd).Checked s ↔ s.Open fd := by
  constructor
  · intro h
    by_contra ho
    exact not_checked_of_closed (c := read io fd) rfl ho ho rfl h
  · intro ho
    refine checked_of_open rfl ho (not_not_intro ho) fun fp => ?_
    refine .bind (.deref fp) fun f => .ite ?_ (.halt _)
    exact .bind (.lift _) fun n => .bind (.modify _) fun _ => .pure n

theorem checked_write_iff {io : FileHandle → OsM ℤ} {fd : ℤ} :
    (write io fd).Checked s ↔ s.Open fd := by
  constructor
  · intro h
    by_contra ho
    exact not_checked_of_closed (c := write io fd) rfl ho ho rfl h
  · intro ho
    refine checked_of_open rfl ho (not_not_intro ho) fun fp => ?_
    refine .bind (.deref fp) fun f => .ite (.pure _) (.ite ?_ (.ite ?_ (.halt _)))
    · exact .bind (.lift _) fun n => .bind (.modify _) fun _ => .pure n
    · exact .bind (.lift _) fun n =>
        .bind (.modify _) fun _ => .bind (.modify _) fun _ => .bind (.modify _) fun _ => .pure n

theorem checked_getdents64_iff {io : FileHandle → OsM ℤ} {fd : ℤ} :
    (getdents64 io fd).Checked s ↔ s.Open fd := by
  constructor
  · intro h
    by_contra ho
    exact not_checked_of_closed (c := getdents64 io fd) rfl ho ho rfl h
  · intro ho
    refine checked_of_open rfl ho (not_not_intro ho) fun fp => ?_
    exact .bind (.pure fp) fun fp => .bind (.deref fp) fun f => .ite (.pure _) (.lift _)

theorem checked_dup_iff {fd : ℤ} : (dup fd).Checked s ↔ fd ≠ nofile := by
  refine checked_iff_of_refuses rfl .rfl rfl fun fp => ?_
  exact .bind (.lift _) fun fp => .registerFileHandle fp (-1)

theorem checked_lseek_iff {fd offset whence : ℤ} :
    (lseek fd offset whence).Checked s ↔ fd ≠ nofile := by
  refine checked_iff_of_refuses rfl .rfl rfl fun fp => ?_
  refine .bind (.deref fp) fun f => .bind ?_ fun nowOff => ?_
  · exact .ite (.pure _) (.ite (.pure _) (.ite (.pure _) (.halt _)))
  · exact .ite (.pure _) (.bind (.modify _) fun _ => .pure _)

theorem checked_fstat_iff {fd : ℤ} {kstAddr : ℕ} :
    (fstat fd kstAddr).Checked s ↔ fd ≠ nofile := by
  refine checked_iff_of_refuses rfl .rfl rfl fun fp => ?_
  exact .bind (.deref fp) fun f => .bind .get fun s => .lift _

/-- A negative descriptor is refused before it is looked up, and a closed one is not. -/
theorem checked_close_iff {fd : ℤ} : (close fd).Checked s ↔ fd < 0 ∨ s.Open fd := by
  by_cases hneg : fd < 0
  · have hret : (close fd).run s = .ok (some (-1), s) := by
      refine bind_of_ok ?_
      rw [CheckedM.sysClose, if_pos hneg]
      rfl
    exact iff_of_true (.of_sane (.of_ok hret) fun _ => hret) (.inl hneg)
  · have hrun : (close fd).run = do
        return some (← CheckedM.getFileByfd fd >>= fun fp => do
          let fp ← file fp
          lift (fileClose fp)
          CheckedM.setOpenFile fd none
          return 0) := by
      rw [run, CheckedM.sysClose, if_neg hneg]
    constructor
    · intro h
      by_contra ho
      exact not_checked_of_closed hrun (fun h => ho (.inr h)) (fun h => ho (.inr h)) rfl h
    · rintro (h | ho)
      · exact absurd h hneg
      · refine checked_of_open hrun ho (not_not_intro ho) fun fp => ?_
        exact .bind (.pure fp) fun fp => .bind (.lift _) fun _ =>
          .bind (.setOpenFile ho.1 ho.2.1) fun _ => .pure _

theorem checked_fcntl_iff {fd cmd newfd : ℤ} : (fcntl fd cmd newfd).Checked s ↔ s.Open fd := by
  by_cases hcmd : cmd = 2 ∨ cmd = 4
  · have hret : (fcntl fd cmd newfd).run s = .ok (some 0, s) := by
      refine bind_of_ok ?_
      rw [CheckedM.sysFcntl, if_pos hcmd]
      rfl
    constructor
    · intro h
      by_contra ho
      have := h.refuses ho
      rw [hret] at this
      cases this
    · intro ho
      exact .of_sane (.of_ok hret) fun hbad => absurd ho hbad
  · have hrun : (fcntl fd cmd newfd).run = do
        return some (← CheckedM.getFileByfd fd >>= fun fp => do
          let fp ← file fp
          if cmd = 3 then return ((← deref fp).mode : ℤ)
          let fp ← lift (fileDup fp)
          let newfd ← lift (allocFd newfd)
          CheckedM.registerFileHandle fp newfd) := by
      rw [run, CheckedM.sysFcntl, if_neg hcmd]
    constructor
    · intro h
      by_contra ho
      exact not_checked_of_closed (c := fcntl fd cmd newfd) hrun ho ho rfl h
    · intro ho
      refine checked_of_open hrun ho (not_not_intro ho) fun fp => .bind (.pure fp) fun fp =>
        .ite ?_ ?_
      · exact .bind (.deref fp) fun f => .pure _
      · exact .bind (.lift _) fun fp => .bind (.lift _) fun fd => .registerFileHandle fp fd

theorem lift_fileDup {fp : ℕ} {f : FileHandle} (hf : s.handles fp = some f) (href : 1 ≤ f.ref) :
    ∃ s', lift (fileDup fp) s = .ok (fp, s') := by
  have hdup : ∃ s', fileDup fp s = .ok (fp, s') := by
    rw [fileDup, get_bind, hf]
    dsimp only
    rw [if_neg (by omega)]
    exact ⟨_, rfl⟩
  obtain ⟨s', hdup⟩ := hdup
  exact ⟨s', by rw [lift, hdup]; rfl⟩

theorem lift_fileDup_stale {fp : ℕ} (h : ∀ f, s.handles fp = some f → f.ref < 1) :
    ∃ e, lift (fileDup fp) s = .error (.halt e) := by
  have hdup : ∃ e, fileDup fp s = .error e := by
    rw [fileDup, get_bind]
    cases hf : s.handles fp with
    | none => exact ⟨_, rfl⟩
    | some f =>
      dsimp only
      rw [if_pos (h f hf)]
      exact ⟨_, rfl⟩
  obtain ⟨e, hdup⟩ := hdup
  exact ⟨e, by rw [lift, hdup]; rfl⟩

theorem checked_dup3_iff {oldfd newfd : ℤ} : (dup3 oldfd newfd).Checked s ↔
    s.Open oldfd ∧ (0 ≤ newfd ∧ newfd < nofile ∨ Stale s oldfd) := by
  by_cases ho : s.Open oldfd
  swap
  · exact iff_of_false (not_checked_of_closed (c := dup3 oldfd newfd) rfl ho ho rfl) fun h => ho h.1
  rw [and_iff_right ho]
  by_cases hin : 0 ≤ newfd ∧ newfd < nofile
  · refine iff_of_true (checked_of_open rfl ho (not_not_intro ho) fun fp => ?_) (.inl hin)
    refine .bind (.pure fp) fun fp => .bind (.lift _) fun fp => .bind (.openFile hin.1 hin.2) ?_
    have hrest : Sane (do
        let ansfd ← CheckedM.registerFileHandle fp newfd
        if ansfd < 0 then lift (fileClose fp)
        return ansfd) :=
      .bind (.registerFileHandle fp newfd) fun ansfd =>
        .ite (.bind (.lift _) fun _ => .pure _) (.pure _)
    rintro (_ | old)
    · exact hrest
    · exact .bind (.lift _) fun _ => .bind (.setOpenFile hin.1 hin.2) fun _ => hrest
  · rw [or_iff_right hin]
    obtain ⟨h₀, h₁, hne⟩ := id ho
    obtain ⟨fp, hfp⟩ := Option.ne_none_iff_exists'.mp hne
    have hget : CheckedM.getFileByfd oldfd s = .ok (some fp, s) := by
      rw [getFileByfd_eq h₀ h₁, hfp]
    constructor
    · intro hc fp' f hfp' hf
      rw [hfp, Option.some.injEq] at hfp'
      subst hfp'
      by_contra hlt
      obtain ⟨s₁, hdup⟩ := lift_fileDup hf (by omega)
      refine hc.openFiles newfd (bind_of_error ?_)
      rw [CheckedM.sysDup3, bind_of_ok hget, bind_of_ok file_some, bind_of_ok hdup]
      refine bind_of_error ?_
      rw [CheckedM.openFile, if_pos (by omega)]
      rfl
    · intro hstale
      obtain ⟨e, hdup⟩ := lift_fileDup_stale fun f hf => hstale fp f hfp hf
      have herr : CheckedM.sysDup3 oldfd newfd s = .error (.halt e) :=
        (bind_of_ok hget).trans ((bind_of_ok file_some).trans (bind_of_error hdup))
      refine .of_sane (saneAt_some fun e' he => ?_) fun hbad => absurd ho hbad
      rw [herr] at he
      cases he
      exact ⟨e, rfl⟩

theorem checked_kill_iff {pid sig : ℤ} : (kill pid sig).Checked s ↔ InTable pid := by
  by_cases hin : InTable pid
  · refine iff_of_true (.of_sane (saneAt_some ?_) fun hbad => absurd hin hbad) hin
    have hat : CheckedM.taskAt pid s = .ok (s.taskTable pid.toNat, s) := by
      obtain ⟨h₀, h₁⟩ := hin
      rw [CheckedM.taskAt, if_neg (by omega)]
      rfl
    exact (SaneAt.of_ok hat).bind fun p s' _ =>
      Sane.ite (.pure _) (.bind (.lift _) fun _ => .pure _) s'
  · refine iff_of_false (fun h => h.taskTable pid ?_) hin
    refine bind_of_error (bind_of_error ?_)
    rw [CheckedM.taskAt, if_pos (by rw [InTable] at hin; omega)]
    rfl

theorem checked_wait4_iff {pid : ℤ} {uaddr : ℕ} : (wait4 pid uaddr).Checked s ↔ -1 ≤ pid := by
  by_cases hany : pid = -1
  · have hsane : Sane (CheckedM.sysWait4 pid uaddr) := by
      rw [CheckedM.sysWait4, if_pos hany]
      exact .lift _
    exact iff_of_true (.of_sane (hsane s) fun hbad => absurd hany hbad.1) (by omega)
  by_cases hbig : pid ≥ ntask
  · have hret : (wait4 pid uaddr).run s = .ok (some (-1), s) := by
      rw [run, CheckedM.sysWait4, if_neg hany, if_pos hbig]
      rfl
    exact iff_of_true (.of_sane (.of_ok hret) fun _ => hret) (by omega)
  have hrun : (wait4 pid uaddr).run = (do
      let _ ← CheckedM.taskAt pid
      lift (StartOS.wait4 pid uaddr)) := by
    rw [run, CheckedM.sysWait4, if_neg hany, if_neg hbig]
  by_cases hneg : pid < 0
  · refine iff_of_false (fun h => h.taskTable pid ?_) (by omega)
    rw [hrun]
    refine bind_of_error ?_
    rw [CheckedM.taskAt, if_pos (.inl hneg)]
    rfl
  · have hin : InTable pid := ⟨by omega, by omega⟩
    refine iff_of_true (.of_sane ?_ fun hbad => absurd hin hbad.2) (by omega)
    rw [hrun]
    refine SaneAt.bind (fun e he => ?_) fun _ s' _ => Sane.lift _ s'
    rw [CheckedM.taskAt, if_neg (by omega)] at he
    cases he

/-- The page that `argaddr` loads in front of a call is of no account for its checks. -/
theorem good_bad_of_load {s₁ : System} {va : ℕ} {b : Bool} (h : loadIfValid va s = .ok (b, s₁)) :
    (c.Good s₁ ↔ c.Good s) ∧ (c.Bad s₁ ↔ c.Bad s) := by
  rw [loadIfValid_eq h]
  cases c <;> exact ⟨.rfl, .rfl⟩

/-- A call checks its argument exactly where it is `Good`. -/
theorem checked_iff (c : ArgCall) (s : System) : c.Checked s ↔ c.Good s := by
  cases c with
  | close fd => exact checked_close_iff
  | read io fd => exact checked_read_iff
  | write io fd => exact checked_write_iff
  | dup fd => exact checked_dup_iff
  | dup3 oldfd newfd => exact checked_dup3_iff
  | fcntl fd cmd newfd => exact checked_fcntl_iff
  | lseek fd offset whence => exact checked_lseek_iff
  | fstat fd kstAddr => exact checked_fstat_iff
  | getdents64 io fd => exact checked_getdents64_iff
  | kill pid sig => exact checked_kill_iff
  | wait4 pid uaddr => exact checked_wait4_iff

/-- The first process has no open file. A descriptor that is not open is used as a pointer or
stops the kernel, the slot behind the last one is read, and a negative pid reads in front of the
table. -/
theorem unchecked_arguments :
    (close 0).run (bootSystem []) = .error .nullFile ∧
    (read (fun _ => pure 0) 5).run (bootSystem []) = .error (.halt (.panic "fp is nullptr")) ∧
    (lseek 120 0 0).run (bootSystem []) = .error (.openFiles 120) ∧
    (fcntl 7 2 0).run (bootSystem []) = .ok (some 0, bootSystem []) ∧
    (kill (-5) 9).run (bootSystem []) = .error (.taskTable (-5)) ∧
    (kill 4096 9).run (bootSystem []) = .error (.taskTable 4096) ∧
    (wait4 (-2) 0).run (bootSystem []) = .error (.taskTable (-2)) ∧
    ¬∀ (c : ArgCall) (s : System), c.Checked s :=
  ⟨rfl, rfl, rfl, rfl, rfl, rfl, rfl, fun h => (h (close 0) (bootSystem [])).nullFile rfl⟩

end ArgCall

end StartOS
