import StartOS.Fs.Geometry

/-! # Where the cluster size is right

No call changes the numbers of the boot sector. Where clusters fit a buffer and
the buffer of a cluster is stored inside of it, no run goes wrong.
-/

namespace StartOS

open Hoare

namespace Fat32Info

variable {info : Fat32Info} {total c f x : ℕ} {offset : ℤ} {disk disk' data : ByteMem}

/-- The buffer of a cluster fits in it, and its offset on the device is an `int`; a transfer past
the last `int` has no sectors. -/
def Placed (info : Fat32Info) (c : ℕ) : Prop :=
  8 ≤ info.sectorsPerCluster ∧ info.clusterSector c < 2 ^ 22 ∨
    2 ^ 22 - 8 ≤ info.clusterSector c % 2 ^ 23 ∧ info.clusterSector c % 2 ^ 23 < 2 ^ 22

theorem toInt32_sector (f : ℕ) : toInt32 ((f : ℤ) * 512) =
    if f % 2 ^ 23 < 2 ^ 22 then ((f % 2 ^ 23 : ℕ) : ℤ) * 512
      else ((f % 2 ^ 23 : ℕ) : ℤ) * 512 - 2 ^ 32 := by
  rw [toInt32, Int.bmod_def]
  split <;> split <;> omega

theorem toInt32_sector_end (f : ℕ) : toInt32 (toInt32 ((f : ℤ) * 512) + bsize) =
    if f % 2 ^ 23 < 2 ^ 22 - 8 then ((f % 2 ^ 23 : ℕ) : ℤ) * 512 + 4096
      else ((f % 2 ^ 23 : ℕ) : ℤ) * 512 + 4096 - 2 ^ 32 := by
  have hb : (bsize : ℤ) = 4096 := rfl
  rw [toInt32_sector, hb]
  split <;> split <;> rw [toInt32, Int.bmod_def] <;> split <;> omega

theorem toInt32_sector_mod (f : ℕ) : toInt32 ((f : ℤ) * 512) % 512 = 0 := by
  rw [toInt32_sector]
  split <;> omega

theorem sectorRange_buf (h : f % 2 ^ 23 < 2 ^ 22 - 8 ∨ 2 ^ 22 ≤ f % 2 ^ 23) :
    sectorRange (toInt32 ((f : ℤ) * 512)) bsize =
      (if f % 2 ^ 23 < 2 ^ 22 then ((f % 2 ^ 23 : ℕ) : ℤ) else ((f % 2 ^ 23 : ℕ) : ℤ) - 2 ^ 23, 8) := by
  rw [sectorRange, toInt32_sector_end, toInt32_sector, Prod.mk.injEq]
  split <;> split <;> constructor <;> omega

theorem sectorRange_dropped (h : 2 ^ 22 - 8 ≤ f % 2 ^ 23) (h' : f % 2 ^ 23 < 2 ^ 22) :
    (sectorRange (toInt32 ((f : ℤ) * 512)) bsize).2 = 0 := by
  rw [sectorRange, toInt32_sector_end, toInt32_sector, if_pos h', if_neg (by omega)]
  dsimp only
  omega

theorem sectorRange_le (f : ℕ) : (sectorRange (toInt32 ((f : ℤ) * 512)) bsize).2 ≤ 8 := by
  by_cases h : 2 ^ 22 - 8 ≤ f % 2 ^ 23 ∧ f % 2 ^ 23 < 2 ^ 22
  · rw [sectorRange_dropped h.1 h.2]
    norm_num
  · rw [sectorRange_buf (by omega)]

theorem transferSectors_dropped (h : 2 ^ 22 - 8 ≤ f % 2 ^ 23) (h' : f % 2 ^ 23 < 2 ^ 22) :
    transferSectors (toInt32 ((f : ℤ) * 512)) = [] := by
  rw [transferSectors, sectorRange_dropped h h']
  rfl

theorem mem_transferSectors_low (h : f < 2 ^ 22 - 8) :
    x ∈ transferSectors (toInt32 ((f : ℤ) * 512)) ↔ f ≤ x ∧ x < f + 8 := by
  rw [transferSectors, sectorRange_buf (by omega), if_pos (by omega)]
  simp only [List.mem_map, List.mem_range]
  constructor
  · rintro ⟨k, hk, rfl⟩
    omega
  · rintro ⟨h₁, h₂⟩
    exact ⟨x - f, by omega, by omega⟩

theorem exists_mem_transferSectors_high (h : 2 ^ 22 ≤ f) (hf : f < 2 ^ 32)
    (hd : f % 2 ^ 23 < 2 ^ 22 - 8 ∨ 2 ^ 22 ≤ f % 2 ^ 23) :
    ∃ x ∈ transferSectors (toInt32 ((f : ℤ) * 512)), x < f ∨ 2 ^ 63 < x := by
  rw [transferSectors, sectorRange_buf hd]
  refine ⟨_, List.mem_map_of_mem (List.mem_range.mpr (by norm_num : 0 < 8)), ?_⟩
  dsimp only
  split <;> omega

/-- The buffer of a cluster is stored in its own sectors exactly where it is placed. -/
theorem transferSectors_own_iff (hspc : 0 < info.sectorsPerCluster)
    (hc : info.clusterSector c + info.sectorsPerCluster < 2 ^ 32) :
    (∀ x ∈ transferSectors (toInt32 ((info.clusterSector c : ℤ) * 512)), info.HasSector c x) ↔
      info.Placed c := by
  unfold HasSector Placed
  generalize info.clusterSector c = f at *
  generalize info.sectorsPerCluster = n at *
  by_cases hdrop : 2 ^ 22 - 8 ≤ f % 2 ^ 23 ∧ f % 2 ^ 23 < 2 ^ 22
  · rw [transferSectors_dropped hdrop.1 hdrop.2]
    exact iff_of_true (fun x hx => by cases hx) (.inr hdrop)
  rw [or_iff_left hdrop]
  by_cases hhigh : 2 ^ 22 ≤ f
  · obtain ⟨x, hx, hout⟩ := exists_mem_transferSectors_high hhigh (by omega) (by omega)
    refine iff_of_false (fun h => ?_) (by omega)
    have := h x hx
    omega
  · have hlow : f < 2 ^ 22 - 8 := by omega
    constructor
    · intro h
      have := h (f + 7) ((mem_transferSectors_low hlow).mpr (by omega))
      omega
    · rintro ⟨hn, -⟩ x hx
      have := (mem_transferSectors_low hlow).mp hx
      omega

/-- A store is foreign when it changes a byte outside of the cluster. -/
theorem foreign_iff : info.Foreign c offset disk (rwDevWrite disk offset bsize data) ↔
    ∃ a, rwDevWrite disk offset bsize data a ≠ disk a ∧ ¬info.HasSector c (a / 512) := by
  constructor
  · rintro ⟨x, -, hout, j, hj, hne⟩
    refine ⟨x * 512 + j, hne, ?_⟩
    rwa [show (x * 512 + j) / 512 = x by omega]
  · rintro ⟨a, hne, hout⟩
    refine ⟨a / 512, ?_, hout, a % 512, Nat.mod_lt _ (by norm_num), ?_⟩
    · rw [rwDevWrite] at hne
      split at hne
      · exact absurd rfl hne
      · dsimp only at hne
        split at hne
        · rename_i hk
          refine List.mem_map.mpr ⟨_, List.mem_range.mpr hk.2, ?_⟩
          omega
        · exact absurd rfl hne
    · rwa [show a / 512 * 512 + a % 512 = a by omega]

theorem not_foreign (h : ∀ x ∈ transferSectors offset, info.HasSector c x) :
    ¬info.Foreign c offset disk disk' := by
  rintro ⟨x, hx, hout, -⟩
  exact hout (h x hx)

theorem DataCluster.lt (h : info.DataCluster total c) (ht : total < 2 ^ 32) :
    info.clusterSector c + info.sectorsPerCluster < 2 ^ 32 := lt_of_le_of_lt h.2.2 ht

end Fat32Info

namespace Fat32FileSystem

variable {g : Fat32Info} {s s' : Fat32FileSystem}

structure HasInfo (g : Fat32Info) (s : Fat32FileSystem) : Prop where
  info : s.info = g
  firstDataSector : s.buffers.firstDataSector = g.firstDataSector
  sectorsPerCluster : s.buffers.sectorsPerCluster = g.sectorsPerCluster

namespace HasInfo

theorem setInode (h : HasInfo g s) (r : InodeRef) (ip : Inode) :
    HasInfo g (s.setInode r ip) := by
  obtain ⟨h₁, h₂, h₃⟩ := h
  cases r with
  | root => exact ⟨h₁, h₂, h₃⟩
  | pos p => exact ⟨h₁, h₂, h₃⟩

theorem updateInodeWith_keeps (r : InodeRef) (f : Inode → Inode) :
    Keeps (HasInfo g) (updateInodeWith r f) :=
  (inode_keeps r).bind fun _ => Keeps.modify fun _ h => h.setInode _ _

theorem stamp_keeps : Keeps (HasInfo g) stamp := by
  intro s t s' h hok
  cases hok
  exact ⟨h.info, h.firstDataSector, h.sectorsPerCluster⟩

theorem writeSector_keeps (sector : ℕ) (data : ByteMem) :
    Keeps (HasInfo g) (writeSector sector data) :=
  Keeps.modify fun _ h => ⟨h.info, h.firstDataSector, h.sectorsPerCluster⟩

theorem readSector_keeps (sector : ℕ) (data : ByteMem) :
    Keeps (HasInfo g) (readSector sector data) :=
  Keeps.get.bind fun _ => Keeps.pure _

theorem updateInode_keeps (r : InodeRef) : Keeps (HasInfo g) (updateInode r) :=
  stamp_keeps.bind fun _ => Keeps.get.bind fun _ => (inode_keeps r).bind fun _ =>
    (readSector_keeps _ _).bind fun _ => writeSector_keeps _ _

theorem getFatEntry_keeps (c : ℕ) : Keeps (HasInfo g) (getFatEntry c) :=
  Keeps.get.bind fun _ => Keeps.ite (Keeps.pure _) (Keeps.ite (Keeps.pure _) (Keeps.throw _))

theorem setFatEntry_keeps (c v : ℕ) : Keeps (HasInfo g) (setFatEntry c v) := by
  intro s a s' h hok
  rw [setFatEntry, get_bind] at hok
  split at hok
  · cases hok
    exact h
  · split at hok
    · cases hok
      exact ⟨h.info, h.firstDataSector, h.sectorsPerCluster⟩
    · cases hok

theorem forM_keeps {α : Type} {f : α → FsM PUnit} (l : List α)
    (h : ∀ a, Keeps (HasInfo g) (f a)) : Keeps (HasInfo g) (l.forM f) := by
  induction l with
  | nil => exact Keeps.pure _
  | cons a l ih => exact (h a).bind fun _ => ih

theorem zeroCluster_keeps (c : ℕ) : Keeps (HasInfo g) (zeroCluster c) :=
  Keeps.get.bind fun _ => forM_keeps _ fun _ => writeSector_keeps _ _

theorem allocFrom_keeps (n c : ℕ) : Keeps (HasInfo g) (allocFrom n c) := by
  induction n generalizing c with
  | zero => exact Keeps.throw _
  | succ n ih =>
    refine (getFatEntry_keeps c).bind fun v => Keeps.ite ?_ (ih (c + 1))
    exact (setFatEntry_keeps _ _).bind fun _ => (zeroCluster_keeps c).bind fun _ => Keeps.pure _

theorem allocCluster_keeps : Keeps (HasInfo g) allocCluster :=
  Keeps.get.bind fun _ => allocFrom_keeps _ _

theorem bmapLoop_keeps (n c : ℕ) : Keeps (HasInfo g) (bmapLoop n c) := by
  induction n generalizing c with
  | zero => exact Keeps.pure _
  | succ n ih =>
    refine Keeps.ite (Keeps.pure _) ?_
    refine (getFatEntry_keeps c).bind fun now => Keeps.ite ?_ (ih now)
    exact allocCluster_keeps.bind fun now => (setFatEntry_keeps _ _).bind fun _ => ih now

theorem bmap_keeps (r : InodeRef) (logi : ℕ) : Keeps (HasInfo g) (bmap r logi) := by
  refine Keeps.get.bind fun s => (inode_keeps r).bind fun ip => ?_
  refine (bmapLoop_keeps _ _).bind fun cur => Keeps.ite (Keeps.pure _) ?_
  exact (updateInodeWith_keeps _ _).bind fun _ => Keeps.pure _

theorem freeFrom_keeps (n c : ℕ) : Keeps (HasInfo g) (freeFrom n c) := by
  induction n generalizing c with
  | zero => exact Keeps.throw _
  | succ n ih =>
    refine Keeps.ite (Keeps.pure _) ?_
    exact (getFatEntry_keeps c).bind fun next => (setFatEntry_keeps _ _).bind fun _ => ih next

theorem freeClusterChain_keeps (c : ℕ) : Keeps (HasInfo g) (freeClusterChain c) :=
  Keeps.get.bind fun _ => freeFrom_keeps _ _

theorem fillShortFile_keeps (entry : Stamp → ByteMem) (name : CString) (cluster mode : ℕ) :
    Keeps (HasInfo g) (fillShortFile entry name cluster mode) :=
  stamp_keeps.bind fun _ =>
    Keeps.ite ((Keeps.throw _).bind fun _ => Keeps.pure _) (Keeps.pure _)

theorem dup_keeps (r : InodeRef) : Keeps (HasInfo g) (dup r) :=
  (updateInodeWith_keeps r _).bind fun _ => Keeps.pure _

theorem getInode_keeps (pos : ℕ) : Keeps (HasInfo g) (getInode pos) := by
  refine Keeps.get.bind fun s => ?_
  cases s.inodes pos with
  | none => exact Keeps.pure _
  | some ip => exact (dup_keeps _).bind fun _ => Keeps.pure _

theorem buildInode_keeps (entry : ByteMem) (pos : ℕ) (r : InodeRef) :
    Keeps (HasInfo g) (buildInode entry pos r) := by
  refine (getInode_keeps pos).bind fun v => ?_
  cases v with
  | some r => exact Keeps.pure _
  | none =>
    exact (dup_keeps r).bind fun _ => (Keeps.modify fun _ h => h.setInode _ _).bind fun _ =>
      Keeps.pure _

theorem deleteInode_keeps (r : InodeRef) : Keeps (HasInfo g) (deleteInode r) :=
  (inode_keeps r).bind fun _ =>
    Keeps.modify fun _ h => ⟨h.info, h.firstDataSector, h.sectorsPerCluster⟩

theorem freeInode_keeps (r : InodeRef) : Keeps (HasInfo g) (freeInode r) := by
  refine (inode_keeps r).bind fun ip => ?_
  have hrest : Keeps (HasInfo g) (do
      updateInodeWith r fun ip => { ip with ref := ip.ref - 1 }
      if ip.ref - 1 = 0 then deleteInode r) :=
    (updateInodeWith_keeps r _).bind fun _ => Keeps.ite (deleteInode_keeps r) (Keeps.pure _)
  exact Keeps.ite ((Keeps.throw _).bind fun _ => hrest) hrest

theorem bufFree_keeps (i : ℕ) : Keeps (HasInfo g) (bufFree i) :=
  Keeps.modify fun _ h => ⟨h.info, h.firstDataSector, h.sectorsPerCluster⟩

theorem bufWrite_keeps (i : ℕ) : Keeps (HasInfo g) (bufWrite i) :=
  Keeps.modify fun _ h => ⟨h.info, h.firstDataSector, h.sectorsPerCluster⟩

theorem bufRead_spec {c i : ℕ} (h : HasInfo g s) (hok : bufRead c s = .ok (i, s')) :
    HasInfo g s' ∧ (s'.buffers.bufCache i).blockno = toInt32 c := by
  rw [bufRead, get_bind] at hok
  cases hr : s.buffers.read s.disk s.dev c with
  | error e =>
    rw [hr] at hok
    cases hok
  | ok q =>
    obtain ⟨i', l⟩ := q
    rw [hr] at hok
    cases hok
    obtain ⟨s₁, ha⟩ := BufferLayer.read_eq_ok hr
    rw [BufferLayer.read_of_alloc ha] at hr
    cases hr
    rcases BufferLayer.allocBuffer_cases ha with ⟨-, hb, rfl⟩ | ⟨-, -, rfl⟩
    · refine ⟨⟨h.info, h.firstDataSector, h.sectorsPerCluster⟩, ?_⟩
      dsimp only
      rw [BufferLayer.setBuf_self, BufferLayer.setBuf_self]
      exact hb
    · refine ⟨⟨h.info, h.firstDataSector, h.sectorsPerCluster⟩, ?_⟩
      dsimp only
      rw [BufferLayer.setBuf_self, BufferLayer.setBuf_self]

theorem bufRead_keeps {c : ℕ} : Keeps (HasInfo g) (bufRead c) := by
  intro s i s' h hok
  exact (bufRead_spec h hok).1

end HasInfo

end Fat32FileSystem

namespace GeometryM

open Fat32FileSystem Fat32Info

variable {g : Fat32Info} {total n : ℕ} {α β : Type} {r : InodeRef} {s s' : Fat32FileSystem}

/-! ## What goes through all calls -/

/-- No step of the program changes the numbers of the boot sector. -/
def KeepsInfo (m : FsM α) : Prop := ∀ g, Keeps (HasInfo g) m

/-- A relation of the programs of this file system to those that they watch which the steps of a
program respect, and the loops that divide, copy and store. -/
structure Respected (total : ℕ) (R : (α : Type) → GeometryM α → FsM α → Prop) : Prop where
  pure : ∀ {α : Type} (a : α), R α (pure a) (pure a)
  halt : ∀ {α : Type} (h : Halt), R α (fault (.halt h)) (throw h)
  bind : ∀ {α β : Type} {m : GeometryM α} {m' : FsM α} {f : α → GeometryM β} {f' : α → FsM β},
    R α m m' → (∀ a, R β (f a) (f' a)) → R β (m >>= f) (m' >>= f')
  get : R Fat32FileSystem get get
  lift : ∀ {α : Type} {m : FsM α}, KeepsInfo m → R α (lift m) m
  entryPos : ∀ r e, R ℕ (entryPos r e) (Fat32FileSystem.entryPos r e)
  readLoop : ∀ r dst n fuel done off out, R (ℤ × List UInt8) (readLoop r dst n fuel done off out)
    (Fat32FileSystem.readLoop r dst n fuel done off out)
  writeLoop : ∀ r src n fuel done off, R (ℤ × ℕ) (writeLoop total r src n fuel done off)
    (Fat32FileSystem.writeLoop r src n fuel done off)

namespace Respected

variable {R : (α : Type) → GeometryM α → FsM α → Prop}

theorem branch {c : Prop} [Decidable c] {m₁ m₂ : GeometryM α} {m₁' m₂' : FsM α} (h₁ : R α m₁ m₁')
    (h₂ : R α m₂ m₂') : R α (if c then m₁ else m₂) (if c then m₁' else m₂') := by
  split
  · exact h₁
  · exact h₂

variable (h : Respected total R)

include h

theorem inode (r : InodeRef) : R Inode (GeometryM.lift (inode r)) (inode r) :=
  h.lift fun _ => inode_keeps r

theorem readInode (dst : ℕ → Bool) (off n : ℕ) :
    R _ (readInode r dst off n) (Fat32FileSystem.readInode r dst off n) :=
  h.bind (h.inode r) fun _ => branch (h.pure _) (h.readLoop _ _ _ _ _ _ _)

theorem readEntry (off : ℕ) : R _ (readEntry r off) (Fat32FileSystem.readEntry r off) :=
  h.bind (h.readInode _ _ _) fun _ => h.pure _

theorem entryFuel (r : InodeRef) : R ℕ (GeometryM.lift (entryFuel r)) (entryFuel r) :=
  h.lift fun _ => entryFuel_keeps r

theorem findFreeLoop (fuel off nfree : ℕ) :
    R _ (findFreeLoop r n fuel off nfree) (Fat32FileSystem.findFreeLoop r n fuel off nfree) := by
  induction fuel generalizing off nfree with
  | zero => exact h.halt _
  | succ fuel ih =>
    refine h.bind (h.readEntry off) fun v => ?_
    cases v with
    | none => exact h.halt _
    | some e => exact branch (h.pure _) (ih _ _)

theorem findFreeEntry : R _ (findFreeEntry r n) (Fat32FileSystem.findFreeEntry r n) :=
  h.bind (h.entryFuel r) fun _ => h.findFreeLoop _ _ _

section Scan

variable {rd : ℕ → GeometryM (Option ByteMem)} {rd' : ℕ → FsM (Option ByteMem)}
  {short : ByteMem → ByteMem → ByteMem} {same : ByteMem → Bool}

theorem readGroup (hrd : ∀ off, R _ (rd off) (rd' off)) (nlfn n off : ℕ) (tmp : ByteMem) :
    R _ (readGroup rd nlfn n off tmp) (Fat32FileSystem.readGroup rd' nlfn n off tmp) := by
  induction n generalizing off tmp with
  | zero =>
    refine h.bind (hrd off) fun v => ?_
    cases v with
    | none => exact h.halt _
    | some e => exact h.pure _
  | succ n ih =>
    refine h.bind (hrd off) fun v => ?_
    cases v with
    | none => exact h.pure _
    | some e =>
      dsimp only
      cases copylfn e tmp with
      | none => exact h.halt _
      | some tmp => exact ih _ _

theorem readName (hrd : ∀ off, R _ (rd off) (rd' off)) (off : ℕ) (tmp : ByteMem) (nlfn : ℕ) :
    R _ (readName rd short off tmp nlfn) (Fat32FileSystem.readName rd' short off tmp nlfn) := by
  refine h.bind (hrd off) fun v => ?_
  cases v with
  | none => exact h.pure _
  | some e =>
    refine branch (h.pure _) (branch (h.pure _) (branch ?_ (h.pure _)))
    cases copylfn e tmp with
    | none => exact h.halt _
    | some tmp => exact h.readGroup hrd _ _ _ _

theorem scanLoop (hrd : ∀ off, R _ (rd off) (rd' off)) (fuel off : ℕ) (tmp : ByteMem)
    (nlfn : ℕ) : R _ (scanLoop rd short same fuel off tmp nlfn)
      (Fat32FileSystem.scanLoop rd' short same fuel off tmp nlfn) := by
  induction fuel generalizing off tmp nlfn with
  | zero => exact h.halt _
  | succ fuel ih =>
    refine h.bind (h.readName hrd off tmp nlfn) fun v => ?_
    cases v with
    | none => exact h.pure _
    | some e => exact branch (h.pure _) (ih _ _ _)

end Scan

theorem lookup (name : CString) : R _ (lookup r name) (Fat32FileSystem.lookup r name) := by
  have hdup := fun r => h.lift fun _ => HasInfo.dup_keeps r
  refine branch (h.bind (hdup r) fun _ => h.pure _) (branch ?_ ?_)
  · exact h.bind (h.inode r) fun _ => h.bind (hdup _) fun _ => h.pure _
  · refine h.bind (h.entryFuel r) fun _ => h.bind h.get fun s => ?_
    refine h.bind (h.scanLoop h.readEntry _ _ _ _) fun v => ?_
    cases v with
    | none => exact h.pure _
    | some e =>
      exact h.bind (h.entryPos r e) fun _ =>
        h.bind (h.lift fun _ => HasInfo.buildInode_keeps _ _ _) fun _ => h.pure _

theorem writeInode (src : ℕ → Option UInt8) (off n : ℕ) :
    R _ (writeInode total r src off n) (Fat32FileSystem.writeInode r src off n) := by
  refine h.bind (h.inode r) fun ip => branch (h.pure _) ?_
  refine h.bind (h.writeLoop _ _ _ _ _ _) fun q => h.bind (h.inode r) fun ip => ?_
  have hrest : R _ (do GeometryM.lift (updateInode r); return q.1)
      (do updateInode r; return q.1) :=
    h.bind (h.lift fun _ => HasInfo.updateInode_keeps r) fun _ => h.pure _
  exact branch (h.bind (h.lift fun _ => HasInfo.updateInodeWith_keeps _ _) fun _ => hrest) hrest

theorem writeBytes (data : ByteMem) (off n : ℕ) :
    R _ (writeBytes total r data off n) (Fat32FileSystem.writeBytes r data off n) :=
  h.writeInode _ _ _

theorem createLoop (name : CString) (checksum : UInt8) (lfnNum n seq off : ℕ) :
    R _ (createLoop total r name checksum lfnNum n seq off)
      (Fat32FileSystem.createLoop r name checksum lfnNum n seq off) := by
  induction n generalizing seq off with
  | zero => exact h.pure _
  | succ n ih => exact h.bind (h.writeBytes _ _ _) fun _ => ih _ _

theorem fillShortFile (entry : Stamp → ByteMem) (name : CString) (cluster mode : ℕ) :
    R _ (GeometryM.lift (fillShortFile entry name cluster mode))
      (fillShortFile entry name cluster mode) :=
  h.lift fun _ => HasInfo.fillShortFile_keeps _ _ _ _

theorem create (name : CString) (mode : ℕ) :
    R _ (create total r name mode) (Fat32FileSystem.create r name mode) := by
  refine h.bind h.findFreeEntry fun off =>
    h.bind (h.lift fun _ => HasInfo.allocCluster_keeps) fun c => ?_
  refine h.bind (h.fillShortFile _ _ _ _) fun e => h.bind (h.writeBytes _ _ _) fun _ => ?_
  refine h.bind (h.readInode _ _ _) fun q => branch (h.bind (h.halt _) fun _ => ?_) ?_
  · exact h.bind (h.createLoop _ _ _ _ _ _) fun _ => h.pure _
  · exact h.bind (h.createLoop _ _ _ _ _ _) fun _ => h.pure _

theorem mkdir (name : CString) (mode : ℕ) :
    R _ (mkdir total r name mode) (Fat32FileSystem.mkdir r name mode) := by
  refine h.bind (h.create _ _) fun _ => h.bind (h.lookup _) fun v => ?_
  cases v with
  | none => exact h.halt _
  | some q =>
    exact h.bind (h.inode q) fun ip => h.bind (h.fillShortFile _ _ _ _) fun dot =>
      h.bind (h.inode r) fun dip => h.bind (h.fillShortFile _ _ _ _) fun dotdot =>
        h.writeBytes _ _ _

theorem markEntryDeleted (n off : ℕ) : R _ (markEntryDeleted total r n off)
    (Fat32FileSystem.markEntryDeleted r n off) := by
  induction n generalizing off with
  | zero => exact h.pure _
  | succ n ih =>
    refine h.bind (h.readEntry off) fun v => ?_
    cases v with
    | none => exact h.pure _
    | some e => exact h.bind (h.writeBytes _ _ _) fun _ => branch (h.pure _) (ih _)

theorem unlink (name : CString) : R _ (unlink total r name) (Fat32FileSystem.unlink r name) := by
  refine h.bind (h.entryFuel r) fun _ => h.bind h.get fun s => ?_
  refine h.bind (h.scanLoop h.readEntry _ _ _ _) fun v => ?_
  cases v with
  | none => exact h.pure _
  | some e =>
    refine h.bind (h.entryPos r e) fun pos => ?_
    refine h.bind (h.lift fun _ => HasInfo.getInode_keeps _) fun v => ?_
    cases v with
    | some q => exact h.bind (h.lift fun _ => HasInfo.freeInode_keeps _) fun _ => h.pure _
    | none =>
      exact h.bind (h.markEntryDeleted _ _) fun _ =>
        h.bind (h.lift fun _ => HasInfo.freeClusterChain_keeps _) fun _ => h.pure _

theorem runOp (op : FsOp) : R _ (runOp total op) (Fat32FileSystem.runOp op) := by
  cases op with
  | create dir name mode => exact h.bind (h.create _ _) fun _ => h.pure _
  | mkdir dir name mode => exact h.bind (h.mkdir _ _) fun _ => h.pure _
  | lookup dir name => exact h.bind (h.lookup _) fun _ => h.pure _
  | read r dst off n => exact h.bind (h.readInode _ _ _) fun _ => h.pure _
  | write r src off n => exact h.bind (h.writeInode _ _ _) fun _ => h.pure _
  | unlink dir name => exact h.bind (h.unlink _) fun _ => h.pure _

end Respected

theorem Watches.respected (total : ℕ) : Respected total fun _ m m' => Watches m m' where
  pure := .pure
  halt := .halt
  bind := .bind
  get _ := .inl rfl
  lift _ := .lift _
  entryPos _ e := .entryPos e
  readLoop _ dst _ := .readLoop dst
  writeLoop _ src _ := .writeLoop src

/-- A call that is watched is the call. -/
theorem watches_runOp (total : ℕ) (op : FsOp) :
    Watches (runOp total op) (Fat32FileSystem.runOp op) :=
  (Watches.respected total).runOp op

/-! ## Clusters that fit -/

/-- Clusters that fit a buffer, which is stored in its own cluster. -/
structure Fits (g : Fat32Info) (total : ℕ) : Prop where
  pos : 0 < g.bytesPerCluster
  le : g.bytesPerCluster ≤ bsize
  total_lt : total < 2 ^ 32
  sectorsPerCluster : 0 < g.sectorsPerCluster
  placed : ∀ c, g.DataCluster total c → g.Placed c

def Holding (g : Fat32Info) (c i : ℕ) (s : Fat32FileSystem) : Prop :=
  HasInfo g s ∧ (s.buffers.bufCache i).blockno = toInt32 c

def Safe (g : Fat32Info) (m : GeometryM α) : Prop := Triple (HasInfo g) m IsHalt fun _ => HasInfo g

theorem access_eq {a n : ℕ} (h : a + n ≤ bsize) : access a n = pure () := by
  rw [access, if_neg (by omega)]

theorem offsetOf_eq (ht : total < 2 ^ 32) (h : HasInfo g s) {c : ℕ} (hc : g.DataCluster total c) :
    s.buffers.offsetOf (toInt32 c % 2 ^ 32).toNat = toInt32 ((g.clusterSector c : ℤ) * 512) := by
  obtain ⟨h₂, hend, -⟩ := id hc
  have hlt := hc.lt ht
  have hmod : (toInt32 c % 2 ^ 32).toNat = c := by
    rw [toInt32_of_lt (by omega) (by omega)]
    omega
  have hsub : (c + 2 ^ 32 - 2) % 2 ^ 32 = c - 2 := by omega
  rw [hmod, BufferLayer.offsetOf, BufferLayer.firstSectorOfCluster, h.firstDataSector,
    h.sectorsPerCluster, hsub]
  rw [show g.firstDataSector + (c - 2) * g.sectorsPerCluster = g.clusterSector c from rfl,
    Nat.mod_eq_of_lt (by omega)]

namespace Safe

theorem pure (a : α) : Safe g (pure a) := Triple.pure fun _ h => h

theorem halt (h : Halt) : Safe g (fault (.halt h) : GeometryM α) := Triple.throw ⟨h, rfl⟩

theorem bind {m : GeometryM α} {f : α → GeometryM β} (h : Safe g m) (hf : ∀ a, Safe g (f a)) :
    Safe g (m >>= f) := Triple.bind h hf

theorem ite {c : Prop} [Decidable c] {m m' : GeometryM α} (h : Safe g m) (h' : Safe g m') :
    Safe g (if c then m else m') := Triple.ite (fun _ => h) fun _ => h'

theorem get : Safe g (get : GeometryM Fat32FileSystem) := by
  intro s h
  constructor
  · intro e he
    cases he
  · rintro a s' hok
    cases hok
    exact h

theorem lift {m : FsM α} (h : Keeps (HasInfo g) m) : Safe g (lift m) := h.embed fun h => ⟨h, rfl⟩

theorem access {a n : ℕ} (h : a + n ≤ bsize) : Safe g (access a n) := by
  rw [access_eq h]
  exact .pure _

theorem bytesPerCluster_bind (hg : Fits g total) {f : ℕ → GeometryM β}
    (hf : Safe g (f g.bytesPerCluster)) :
    Safe g (do f (← divisor (← MonadState.get).info.bytesPerCluster)) := by
  refine Triple.get_bind fun s h => ?_
  rw [divisor, h.info, if_neg (by have := hg.pos; omega)]
  exact hf

theorem mod_add_prefixLen_le (hg : Fits g total) (ok : ℕ → Bool) (off k : ℕ) :
    off % g.bytesPerCluster + prefixLen ok (min k (g.bytesPerCluster - off % g.bytesPerCluster)) ≤
      bsize := by
  have h₁ := prefixLen_le ok (min k (g.bytesPerCluster - off % g.bytesPerCluster))
  have h₂ := Nat.mod_lt off hg.pos
  have h₃ := hg.le
  omega

theorem readLoop (hg : Fits g total) (dst : ℕ → Bool) (fuel done off : ℕ) (out : List UInt8) :
    Safe g (readLoop r dst n fuel done off out) := by
  induction fuel generalizing done off out with
  | zero => exact .halt _
  | succ fuel ih =>
    refine .ite ?_ (.pure _)
    refine .bytesPerCluster_bind hg ?_
    refine (lift (HasInfo.bmap_keeps _ _)).bind fun c => ?_
    refine (lift HasInfo.bufRead_keeps).bind fun i => Safe.get.bind fun s => ?_
    refine (access (mod_add_prefixLen_le hg _ _ _)).bind fun _ => .ite (.pure _) ?_
    exact (lift (HasInfo.bufFree_keeps i)).bind fun _ => ih _ _ _

theorem entryPos (hg : Fits g total) (e : Scanned) : Safe g (entryPos r e) := by
  refine .bytesPerCluster_bind hg ?_
  exact (lift (HasInfo.bmap_keeps _ _)).bind fun c => Safe.get.bind fun s => .pure _

theorem bufRead (c : ℕ) : Triple (HasInfo g) (GeometryM.lift (bufRead c)) IsHalt (Holding g c) := by
  intro s h
  cases hr : Fat32FileSystem.bufRead c s with
  | error e =>
    rw [GeometryM.lift, embed_of_error hr]
    constructor
    · rintro e' he
      cases he
      exact ⟨e, rfl⟩
    · rintro i s' hok
      cases hok
  | ok q =>
    rw [GeometryM.lift, embed_of_ok hr]
    constructor
    · rintro e' he
      cases he
    · rintro i s' hok
      cases hok
      exact HasInfo.bufRead_spec h hr

theorem bufWrite (hg : Fits g total) (c i : ℕ) :
    Triple (Holding g c i) (bufWrite total c i) IsHalt fun _ => HasInfo g := by
  refine Triple.get_bind fun s h => ?_
  refine Triple.conseq (P := HasInfo g) ?_ (fun s h => h.1) fun _ _ h => h
  refine (lift (HasInfo.bufWrite_keeps i)).bind fun _ => Safe.get.bind fun s' => ?_
  rw [if_neg]
  · exact .pure _
  · rw [StoresForeign, h.1.info, h.2]
    rintro ⟨hc, hf⟩
    refine not_foreign ?_ hf
    rw [offsetOf_eq hg.total_lt h.1 hc]
    exact (transferSectors_own_iff hg.sectorsPerCluster (hc.lt hg.total_lt)).mpr (hg.placed c hc)

theorem writeLoop (hg : Fits g total) (src : ℕ → Option UInt8) (fuel done off : ℕ) :
    Safe g (writeLoop total r src n fuel done off) := by
  induction fuel generalizing done off with
  | zero => exact .halt _
  | succ fuel ih =>
    refine .ite ?_ (.pure _)
    refine .bytesPerCluster_bind hg ?_
    refine (lift (HasInfo.bmap_keeps _ _)).bind fun c => ?_
    refine Triple.bind (bufRead c) fun i => Triple.get_bind fun s h => ?_
    dsimp only
    rw [access_eq (mod_add_prefixLen_le hg _ _ _), pure_bind]
    refine Triple.bind (Q := fun _ => Holding g c i) (Triple.modify fun s' h' => ?_) fun _ => ?_
    · exact ⟨⟨h'.1.info, h'.1.firstDataSector, h'.1.sectorsPerCluster⟩, by
        rw [BufferLayer.setBuf_self]; exact h.2⟩
    · refine Triple.ite (fun _ => Triple.pure fun _ h => h.1) fun _ => ?_
      refine (bufWrite hg c i).bind fun _ => ?_
      exact (lift (HasInfo.bufFree_keeps i)).bind fun _ => ih _ _

theorem respected (hg : Fits g total) : Respected total fun _ m _ => Safe g m where
  pure := .pure
  halt := .halt
  bind := .bind
  get := .get
  lift h := .lift (h g)
  entryPos _ e := .entryPos hg e
  readLoop _ dst _ := .readLoop hg dst
  writeLoop _ src _ := .writeLoop hg src

theorem runOps (hg : Fits g total) (ops : List FsOp) : Safe g (runOps total ops) := by
  induction ops with
  | nil => exact .pure _
  | cons op ops ih => exact ((respected hg).runOp op).bind fun _ => ih

end Safe

end GeometryM

end StartOS
