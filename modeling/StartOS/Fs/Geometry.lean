import StartOS.Fs.FsOp

/-! # Cluster sizes

The volume may have clusters of 1 to 128 sectors, a buffer has room for 8. Here
the calls that divide by the size of a cluster, copy from or to a buffer or
store one say so when a division, a copy or a store goes wrong; everything else
is as it is.
-/

namespace StartOS

open Hoare

/-- What a cluster size may lead to, next to the ways a call does not return. -/
inductive GeometryFault
  | division
  | outside (i : ℕ)
  | neighbour (cluster : ℕ)
  | halt (h : Halt)
  deriving DecidableEq, Repr

abbrev GeometryM := StateT Fat32FileSystem (Except GeometryFault)

def transferSectors (offset : ℤ) : List ℕ :=
  (List.range (sectorRange offset bsize).2).map fun k =>
    (((sectorRange offset bsize).1 + (k : ℤ)) % 2 ^ 64).toNat

namespace Fat32Info

def clusterSector (info : Fat32Info) (c : ℕ) : ℕ :=
  info.firstDataSector + (c - 2) * info.sectorsPerCluster

/-- A cluster inside the `total` sectors of the volume; from `0x0ffffff7` on there are only
marks. -/
def DataCluster (info : Fat32Info) (total c : ℕ) : Prop :=
  2 ≤ c ∧ c < 0x0ffffff7 ∧ info.clusterSector c + info.sectorsPerCluster ≤ total

instance (info : Fat32Info) (total c : ℕ) : Decidable (info.DataCluster total c) :=
  inferInstanceAs (Decidable (_ ∧ _ ∧ _))

theorem DataCluster.ne_end {info : Fat32Info} {total c : ℕ} (h : info.DataCluster total c) :
    c ≠ Fat32FileSystem.endOfCluster := by
  have hlt := h.2.1
  rw [Fat32FileSystem.endOfCluster]
  omega

def HasSector (info : Fat32Info) (c x : ℕ) : Prop :=
  info.clusterSector c ≤ x ∧ x < info.clusterSector c + info.sectorsPerCluster

instance (info : Fat32Info) (c x : ℕ) : Decidable (info.HasSector c x) :=
  inferInstanceAs (Decidable (_ ∧ _))

/-- A store of a buffer at `offset` turns `disk` into `disk'` and with it a sector that is not one
of the cluster. -/
def Foreign (info : Fat32Info) (c : ℕ) (offset : ℤ) (disk disk' : ByteMem) : Prop :=
  ∃ x ∈ transferSectors offset, ¬info.HasSector c x ∧
    ∃ j < 512, disk' (x * 512 + j) ≠ disk (x * 512 + j)

instance (info : Fat32Info) (c : ℕ) (offset : ℤ) (disk disk' : ByteMem) :
    Decidable (info.Foreign c offset disk disk') :=
  inferInstanceAs (Decidable (∃ x ∈ transferSectors offset, _))

end Fat32Info

namespace GeometryM

open Fat32FileSystem

def fault {α : Type} (e : GeometryFault) : GeometryM α := fun _ => .error e

def lift {α : Type} (m : FsM α) : GeometryM α := embed .halt m

instance : MonadExceptOf Halt GeometryM where
  throw h := fault (.halt h)
  tryCatch m f := fun s => match m s with
    | .error (.halt h) => f h s
    | r => r

def divisor (n : ℕ) : GeometryM ℕ := if n = 0 then fault .division else pure n

def access (a n : ℕ) : GeometryM Unit :=
  if n ≠ 0 ∧ bsize < a + n then fault (.outside (a + n - 1)) else pure ()

/-- The loop of `ReadInode`. -/
def readLoop (r : InodeRef) (dst : ℕ → Bool) (n : ℕ) :
    ℕ → ℕ → ℕ → List UInt8 → GeometryM (ℤ × List UInt8)
  | 0, _, _, _ => fault (.halt .hang)
  | fuel + 1, total, offset, out => do
    if total < n then
      let bpc ← divisor (← get).info.bytesPerCluster
      let cluster ← lift (bmap r (offset / bpc % 2 ^ 32))
      let i ← lift (bufRead cluster)
      let b := (← get).buffers.bufCache i
      let mod := offset % bpc
      let nread := min (n - total) (bpc - mod)
      let m := prefixLen (fun j => dst (total + j)) nread
      access mod m
      let out := out ++ (List.range m).map fun j => b.data (mod + j)
      if m < nread then return (-1, out)
      lift (bufFree i)
      readLoop r dst n fuel (total + nread) (offset + nread) out
    else return (toInt32 total, out)

def readInode (r : InodeRef) (dst : ℕ → Bool) (offset n : ℕ) : GeometryM (ℤ × List UInt8) := do
  let ip ← lift (inode r)
  if offset > ip.sz ∨ (offset + n) % 2 ^ 64 < offset then return (0, [])
  let n := if offset + n > ip.sz then ip.sz - offset else n
  readLoop r dst n (n + 1) 0 offset []

def entryPos (dir : InodeRef) (g : Scanned) : GeometryM ℕ := do
  let bpc ← divisor (← get).info.bytesPerCluster
  let cluster ← lift (bmap dir ((g.off - 32) / bpc % 2 ^ 32))
  let s ← get
  return s.firstSectorOfCluster cluster * sectorSize % 2 ^ 32 + (g.off - 32) % bpc

/-- `ReadInode` of one entry, when all of it is there. -/
def readEntry (dir : InodeRef) (off : ℕ) : GeometryM (Option ByteMem) := do
  let (n, out) ← readInode dir (fun _ => true) off 32
  return if n = 32 then some (overlay (fun _ => 0) out) else none

/-- The loop of `FindFreeEntry`. -/
def findFreeLoop (dir : InodeRef) (n : ℕ) : ℕ → ℕ → ℕ → GeometryM ℕ
  | 0, _, _ => fault (.halt .hang)
  | fuel + 1, off, nfree => do
    match ← readEntry dir off with
    | none => fault (.halt (.panic "fat32:can't find free entry"))
    | some entry =>
      let nfree := if entry 0 = 0xe5 ∨ entry 0 = 0 then nfree + 1 else 0
      if nfree = n then return off + 32 - nfree * 32
      findFreeLoop dir n fuel (off + 32) nfree

def findFreeEntry (dir : InodeRef) (n : ℕ) : GeometryM ℕ := do
  findFreeLoop dir n (← lift (entryFuel dir)) 0 0

def lookup (dir : InodeRef) (name : CString) : GeometryM (Option InodeRef) := do
  if strncmp (fun i => if i = 0 then 0x2e else 0) name.bytes name.strlen = 0 then
    return some (← lift (dup dir))
  if strncmp (fun i => if i < 2 then 0x2e else 0) name.bytes name.strlen = 0 then
    return some (← lift (dup (← lift (inode dir)).parent))
  match ← lookupScan (readEntry dir) name (← lift (entryFuel dir)) (← get).junk with
  | none => return none
  | some g => return some (← lift (buildInode g.entry (← entryPos dir g) dir))

section

variable (total : ℕ)

/-- The store of buffer `i` has led from `s` to `s'` and changed a sector outside of the cluster. -/
def StoresForeign (cluster i : ℕ) (s s' : Fat32FileSystem) : Prop :=
  s.info.DataCluster total cluster ∧ s.info.Foreign cluster
    (s.buffers.offsetOf ((s.buffers.bufCache i).blockno % 2 ^ 32).toNat) s.disk s'.disk

@[irreducible]
instance decidableStoresForeign (cluster i : ℕ) (s s' : Fat32FileSystem) :
    Decidable (StoresForeign total cluster i s s') :=
  inferInstanceAs (Decidable (_ ∧ _))

/-- `buffer_layer.write` of the buffer of a cluster, on a volume of `total` sectors. -/
def bufWrite (cluster i : ℕ) : GeometryM Unit := do
  let s ← get
  lift (Fat32FileSystem.bufWrite i)
  if StoresForeign total cluster i s (← get) then fault (.neighbour cluster)

/-- The loop of `WriteInode`. -/
def writeLoop (r : InodeRef) (src : ℕ → Option UInt8) (n : ℕ) : ℕ → ℕ → ℕ → GeometryM (ℤ × ℕ)
  | 0, _, _ => fault (.halt .hang)
  | fuel + 1, done, off => do
    if done < n then
      let bpc ← divisor (← get).info.bytesPerCluster
      let cluster ← lift (bmap r (off / bpc % 2 ^ 32))
      let i ← lift (bufRead cluster)
      let b := (← get).buffers.bufCache i
      let mod := off % bpc
      let nwrite := min (n - done) (bpc - mod)
      let m := prefixLen (fun j => (src (done + j)).isSome) nwrite
      access mod m
      let data := b.data.blit mod m fun j => (src (done + j)).getD 0
      modify fun s => { s with buffers := s.buffers.setBuf i { b with data := data } }
      if m < nwrite then return (-1, off)
      bufWrite total cluster i
      lift (bufFree i)
      writeLoop r src n fuel (done + nwrite) (off + nwrite)
    else return (toInt32 done, off)

def writeInode (r : InodeRef) (src : ℕ → Option UInt8) (off n : ℕ) : GeometryM ℤ := do
  let ip ← lift (inode r)
  if off > ip.sz ∨ (off + n) % 2 ^ 64 < off then return -1
  let (done, off) ← writeLoop total r src n (n + 1) 0 off
  let ip ← lift (inode r)
  if off > ip.sz then lift (updateInodeWith r fun ip => { ip with sz := off % 2 ^ 32 })
  lift (updateInode r)
  return done

def writeBytes (r : InodeRef) (data : ByteMem) (off n : ℕ) : GeometryM ℤ :=
  writeInode total r (fun i => some (data i)) off n

/-- The loop of `Create`. -/
def createLoop (dir : InodeRef) (name : CString) (checksum : UInt8) (lfnNum : ℕ) :
    ℕ → ℕ → ℕ → GeometryM Unit
  | 0, _, _ => return ()
  | n + 1, seq, off => do
    let _ ← writeBytes total dir (longEntry name checksum lfnNum seq) off 32
    createLoop dir name checksum lfnNum n (seq + 1) ((off + 2 ^ 32 - 32) % 2 ^ 32)

def create (dir : InodeRef) (name : CString) (mode : ℕ) : GeometryM ℤ := do
  let lfnNum := (name.strlen + 12) / 13
  let off := ((← findFreeEntry dir (lfnNum + 1)) + lfnNum * 32) % 2 ^ 32
  let cluster ← lift allocCluster
  let entry ← lift (fillShortFile (fun _ _ => 0) name cluster mode)
  let _ ← writeBytes total dir entry off 32
  let (_, out) ← readInode dir (fun _ => true) off 32
  let checksum := fatChecksum (overlay (fun _ => 0) out)
  if lfnNum ≥ 255 then fault (.halt .hang)
  createLoop total dir name checksum lfnNum lfnNum 1 ((off + 2 ^ 32 - 32) % 2 ^ 32)
  return 0

def mkdir (dir : InodeRef) (name : CString) (mode : ℕ) : GeometryM ℤ := do
  let _ ← create total dir name (mode ||| 0o040000)
  match ← lookup dir name with
  | none => fault (.halt (.panic "mkdir"))
  | some r =>
    let dot ← lift (fillShortFile stackEntry .empty (← lift (inode r)).iStart mode)
    let dip ← lift (inode dir)
    let dotdot ← lift (fillShortFile stackEntry .empty dip.iStart dip.mode)
    writeBytes total r (dotEntries dot dotdot) 0 64

/-- `MarkEntryDeleted` of `n` entries, backwards from `off`. -/
def markEntryDeleted (dir : InodeRef) : ℕ → ℕ → GeometryM Unit
  | 0, _ => return ()
  | n + 1, off => do
    match ← readEntry dir off with
    | none => return ()
    | some entry =>
      if (← writeBytes total dir (entry.fill 0 1 0xe5) off 32) ≠ 32 then return ()
      markEntryDeleted dir n ((off + 2 ^ 32 - 32) % 2 ^ 32)

def unlink (dir : InodeRef) (name : CString) : GeometryM ℤ := do
  match ← unlinkScan (readEntry dir) name (← lift (entryFuel dir)) (← get).junk with
  | none => return 0
  | some g =>
    match ← lift (getInode (← entryPos dir g)) with
    | some r =>
      lift (freeInode r)
      return -1
    | none =>
      markEntryDeleted total dir (g.nlfn + 1) (g.off - 32)
      lift (freeClusterChain (getStartCluster g.entry))
      return 0

def runOp : FsOp → GeometryM Unit
  | .create dir name mode => do let _ ← create total dir name mode
  | .mkdir dir name mode => do let _ ← mkdir total dir name mode
  | .lookup dir name => do let _ ← lookup dir name
  | .read r dst off n => do let _ ← readInode r dst off n
  | .write r src off n => do let _ ← writeInode total r src off n
  | .unlink dir name => do let _ ← unlink total dir name

def runOps : List FsOp → GeometryM Unit
  | [] => return ()
  | op :: ops => do
    runOp total op
    runOps ops

end

/-! ## What is watched -/

def IsHalt (e : GeometryFault) : Prop := ∃ h, e = .halt h

/-- The first program does what the second one does or stops before something goes wrong. -/
def Watches {α : Type} (m : GeometryM α) (m' : FsM α) : Prop :=
  ∀ s, m s = lift m' s ∨ ∃ e, ¬IsHalt e ∧ m s = .error e

namespace Watches

variable {α β : Type} {m : GeometryM α} {m' : FsM α} {f : α → GeometryM β} {f' : α → FsM β}
  {r : InodeRef} {n total : ℕ}

theorem lift (m : FsM α) : Watches (lift m) m := fun _ => .inl rfl

theorem pure (a : α) : Watches (pure a) (pure a) := fun _ => .inl rfl

theorem modify (g : Fat32FileSystem → Fat32FileSystem) : Watches (modify g) (modify g) :=
  fun _ => .inl rfl

theorem halt (h : Halt) : Watches (fault (.halt h) : GeometryM α) (throw h) := fun _ => .inl rfl

theorem bind (h : Watches m m') (hf : ∀ a, Watches (f a) (f' a)) :
    Watches (m >>= f) (m' >>= f') := by
  intro s
  rcases h s with he | ⟨e, hne, he⟩
  · cases hm : m' s with
    | error e =>
      rw [GeometryM.lift, embed_of_error hm] at he
      rw [bind_of_error he, GeometryM.lift, embed_of_error (bind_of_error hm)]
      exact .inl rfl
    | ok q =>
      rw [GeometryM.lift, embed_of_ok hm] at he
      rw [bind_of_ok he, GeometryM.lift, embed, bind_of_ok hm]
      exact hf q.1 q.2
  · exact .inr ⟨e, hne, bind_of_error he⟩

theorem get_bind {f : Fat32FileSystem → GeometryM β} {f' : Fat32FileSystem → FsM β}
    (hf : ∀ s, Watches (f s) (f' s)) : Watches (get >>= f) (get >>= f') := by
  intro s
  exact hf s s

theorem ite {c : Prop} [Decidable c] {m₁ : GeometryM α} {m₁' : FsM α} (h : Watches m m')
    (h₁ : Watches m₁ m₁') : Watches (if c then m else m₁) (if c then m' else m₁') := by
  split
  · exact h
  · exact h₁

theorem divisor_bind {f : ℕ → GeometryM β} {f' : FsM β} (hf : Watches (f n) f') :
    Watches (divisor n >>= f) f' := by
  intro s
  by_cases h : n = 0
  · refine .inr ⟨.division, (by rintro ⟨h, hh⟩; cases hh), bind_of_error ?_⟩
    rw [divisor, if_pos h]
    rfl
  · rw [divisor, if_neg h, pure_bind]
    exact hf s

theorem access_bind {a : ℕ} {f : Unit → GeometryM β} {f' : FsM β} (hf : Watches (f ()) f') :
    Watches (access a n >>= f) f' := by
  intro s
  by_cases h : n ≠ 0 ∧ bsize < a + n
  · refine .inr ⟨.outside (a + n - 1), (by rintro ⟨h, hh⟩; cases hh), bind_of_error ?_⟩
    rw [access, if_pos h]
    rfl
  · rw [access, if_neg h, pure_bind]
    exact hf s

theorem bufWrite (c i : ℕ) : Watches (bufWrite total c i) (Fat32FileSystem.bufWrite i) := by
  intro s
  by_cases h : StoresForeign total c i s { s with disk := s.buffers.write s.disk i }
  · refine .inr ⟨.neighbour c, (by rintro ⟨h, hh⟩; cases hh), ?_⟩
    exact congrFun (if_pos h) _
  · exact .inl (congrFun (if_neg h) _)

theorem readLoop (dst : ℕ → Bool) (fuel done off : ℕ) (out : List UInt8) :
    Watches (readLoop r dst n fuel done off out)
      (Fat32FileSystem.readLoop r dst n fuel done off out) := by
  induction fuel generalizing done off out with
  | zero => exact .halt _
  | succ fuel ih =>
    refine .ite (get_bind fun s => divisor_bind ?_) (.pure _)
    refine (lift _).bind fun c => (lift _).bind fun i => get_bind fun s => access_bind ?_
    exact .ite (.pure _) ((lift _).bind fun _ => ih _ _ _)

theorem entryPos (g : Scanned) : Watches (entryPos r g) (Fat32FileSystem.entryPos r g) :=
  get_bind fun _ => divisor_bind <| (lift _).bind fun _ => get_bind fun _ => .pure _

theorem writeLoop (src : ℕ → Option UInt8) (fuel done off : ℕ) :
    Watches (writeLoop total r src n fuel done off)
      (Fat32FileSystem.writeLoop r src n fuel done off) := by
  induction fuel generalizing done off with
  | zero => exact .halt _
  | succ fuel ih =>
    refine .ite (get_bind fun s => divisor_bind ?_) (.pure _)
    refine (lift _).bind fun c => (lift _).bind fun i => get_bind fun s => access_bind ?_
    refine (modify _).bind fun _ => .ite (.pure _) ?_
    exact (bufWrite c i).bind fun _ => (lift _).bind fun _ => ih _ _

end Watches

end GeometryM

end StartOS
