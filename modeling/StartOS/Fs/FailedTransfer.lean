import StartOS.Fs.BufferRelease
import StartOS.Fs.PipeRun
import StartOS.Fs.VfsFile

/-! # Transfers that fail

A reader of a pipe may have given a buffer that ends early, and a file layer may
return -1. What has left the pipe or moved the file by then is not put back.
-/

namespace StartOS

open Hoare

namespace Pipe

variable {p p' : Pipe} {q : List UInt8} {mem mem' : UserBytes} {addr k j i m : ℕ} {n : ℤ}
  {killed : Bool}

/-- A read takes out of the pipe, which holds `q`, the bytes it stores in the buffer and
returns their number. -/
def LosesNothing (killed : Bool) (addr : ℕ) (n : ℤ) (p : Pipe) (q : List UInt8) (mem : UserBytes) :
    Prop :=
  ∀ out p' mem', p.read killed addr n mem = (out, p', mem') →
    p'.nread = (p.nread + (out.getD 0).toNat) % 2 ^ 32 ∧
      mem'.bytesAt addr (out.getD 0).toNat = q.take (out.getD 0).toNat ∧
      p'.Holds (q.drop (out.getD 0).toNat)

theorem readFrom_add (k j i : ℕ) (p : Pipe) (mem : UserBytes) :
    readFrom addr (k + j) i p mem =
      if (readFrom addr k i p mem).1 < i + k then readFrom addr k i p mem
      else readFrom addr j (i + k) (readFrom addr k i p mem).2.1 (readFrom addr k i p mem).2.2 := by
  induction k generalizing i p mem with
  | zero => simp [readFrom]
  | succ k ih =>
    rw [Nat.add_right_comm, readFrom, readFrom]
    split
    · simp
    · split
      · simp
      · rw [ih, show i + 1 + k = i + (k + 1) by omega]

theorem readFrom_nwrite (addr k i : ℕ) (p : Pipe) (mem : UserBytes) :
    (readFrom addr k i p mem).2.1.nwrite = p.nwrite := by
  induction k generalizing i p mem with
  | zero => rfl
  | succ k ih =>
    rw [readFrom]
    split
    · rfl
    · split
      · rfl
      · exact ih ..

theorem Holds.nread_eq {r d : List UInt8} (h : p.Holds (d ++ r)) (h' : p'.Holds r)
    (hw : p'.nwrite = p.nwrite) : p'.nread = (p.nread + d.length) % 2 ^ 32 := by
  have h₁ := h.nwrite_eq
  have h₂ := h'.nwrite_eq
  have hlt := h'.nread_lt
  have hle : (d ++ r).length ≤ 512 := h.length_le
  rw [List.length_append] at h₁ hle
  omega

/-- A read into a buffer whose bytes end at `m` loses nothing exactly when the pipe has no more
bytes than that: the byte that cannot be stored has already left the pipe. -/
theorem losesNothing_iff (h : p.Holds q) (hn : n < 2 ^ 31) (hm : m < n)
    (hv : mem.Valid addr m) (hend : mem.copyin (addr + m) = none) :
    LosesNothing killed addr n p q mem ↔ q.length ≤ m := by
  obtain ⟨j, hj⟩ : ∃ j, n.toNat = m + (j + 1) := ⟨n.toNat - m - 1, by omega⟩
  obtain ⟨d, r, rfl, hd, hr, p₁, mem₁, hrun, h₁, hbytes, hframe⟩ :=
    h.readFrom 0 (k := m) hv (by omega)
  rw [Nat.zero_add] at hrun
  have hnread : p₁.nread = (p.nread + d.length) % 2 ^ 32 := by
    have hw := readFrom_nwrite addr m 0 p mem
    rw [hrun] at hw
    exact h.nread_eq h₁ hw
  have hall : readFrom addr n.toNat 0 p mem =
      if d.length < m then (d.length, p₁, mem₁) else readFrom addr (j + 1) m p₁ mem₁ := by
    rw [hj, readFrom_add, hrun]
    simp only [Nat.zero_add]
  by_cases hwait : p.nread = p.nwrite ∧ p.writeopen
  · -- an empty pipe with a writer: the call sleeps or the task is killed
    have hnil := h.empty_iff.mp hwait.1
    have hlen : (d ++ r).length ≤ m := by simp [hnil]
    have hlt := h.nread_lt
    refine iff_of_true (fun out p' mem' hrd => ?_) hlen
    have hsame : (out.getD 0).toNat = 0 ∧ p' = p := by
      rw [read, if_pos hwait] at hrd
      split at hrd <;> cases hrd <;> exact ⟨rfl, rfl⟩
    obtain ⟨h0, rfl⟩ := hsame
    rw [h0]
    exact ⟨by omega, rfl, h⟩
  · have hread : p.read killed addr n mem =
        (some ((readFrom addr n.toNat 0 p mem).1 : ℤ), (readFrom addr n.toNat 0 p mem).2) := by
      rw [read, if_neg hwait]
    constructor
    · intro hl
      by_contra hgt
      rw [List.length_append] at hgt
      have hdm : d.length = m := by
        by_contra hne
        have hnil := hr (by omega)
        rw [hnil, List.length_nil] at hgt
        omega
      cases r with
      | nil => rw [List.length_nil] at hgt; omega
      | cons c r =>
        -- the next byte is taken and not stored
        have hne : p₁.nread ≠ p₁.nwrite := fun he => by simpa using h₁.empty_iff.mp he
        have hun : mem₁.copyout (addr + m) (p₁.data (p₁.nread % pipeSize)) = none := by
          have hmem : mem₁ ((addr + m) % 2 ^ 64) = none := by
            rw [hframe _ fun k hk => by omega]
            exact hend
          rw [UserBytes.copyout, hmem]
          rfl
        have hlost : readFrom addr n.toNat 0 p mem =
            (m, { p₁ with nread := (p₁.nread + 1) % 2 ^ 32 }, mem₁) := by
          rw [hall, if_neg (by omega), readFrom, if_neg hne, hun]
        obtain ⟨hcount, -⟩ := hl _ _ _ (hread.trans (by rw [hlost]))
        simp only [Option.getD_some, Int.toNat_natCast] at hcount
        omega
    · intro hle out p' mem' hrd
      rw [List.length_append] at hle
      have hnil : r = [] := by
        by_contra hne
        have := List.length_pos_iff.mpr hne
        exact hne (hr (by omega))
      subst hnil
      have hdone : readFrom addr n.toNat 0 p mem = (d.length, p₁, mem₁) := by
        rw [hall]
        split
        · rfl
        · rw [readFrom, if_pos (h₁.empty_iff.mpr rfl), show m = d.length by omega]
      rw [hread, hdone] at hrd
      cases hrd
      simp only [Option.getD_some, Int.toNat_natCast, List.append_nil]
      refine ⟨hnread, ?_, ?_⟩
      · simpa using hbytes
      · simpa using h₁

def oneByte : Pipe := ⟨true, true, 1, 0, fun _ => 7⟩

theorem holds_oneByte : oneByte.Holds [7] := by
  constructor <;> decide

theorem losesNothing_oneByte :
    LosesNothing false 0 2 oneByte [7] fun a => if a = 0 then some 0 else none :=
  (losesNothing_iff (m := 1) holds_oneByte (by decide) (by decide)
    (fun j hj => by obtain rfl : j = 0 := by omega
                    rfl) rfl).mpr le_rfl

/-- A read to an unmapped address returns 0 and empties the pipe. -/
theorem read_drops_byte : oneByte.Holds [7] ∧
    oneByte.read false 0 1 (fun _ => none) = (some 0, { oneByte with nread := 1 }, fun _ => none) ∧
    ¬LosesNothing false 0 1 oneByte [7] fun _ => none := by
  refine ⟨holds_oneByte, rfl, fun h => ?_⟩
  have hcount := (h (some 0) _ _ rfl).1
  exact absurd hcount (by decide)

end Pipe

namespace VfsManager

/-- What is below an open file: its pipe, or the file system of its inode. Buffers are addresses
and every call returns an `int`. -/
structure FileLayers (σ : Type) where
  pipeRead : ℕ → ℤ → StateT σ Kernel ℤ
  pipeWrite : ℕ → ℤ → StateT σ Kernel ℤ
  inodeRead : InodeRef → ℕ → ℕ → ℤ → StateT σ Kernel ℤ
  inodeWrite : InodeRef → ℕ → ℕ → ℤ → StateT σ Kernel ℤ

inductive Direction
  | read
  | write
  deriving DecidableEq, Repr

variable {σ : Type} {s s' : σ} {fp fp' : File} {b : ℕ} {n z : ℤ}

/-- The calls in the two `switch`es. -/
def layerCall (L : FileLayers σ) (d : Direction) (fp : File) (b : ℕ) (n : ℤ) :
    StateT σ Kernel ℤ :=
  match fp.type, d with
  | .pipe, .read => L.pipeRead b n
  | .pipe, .write => L.pipeWrite b n
  | .inode, .read => L.inodeRead fp.inode b (fp.offset % 2 ^ 32) n
  | .inode, .write => L.inodeWrite fp.inode b (fp.offset % 2 ^ 32) n
  | _, _ => throw (.panic "unknown file type")

/-- `VfsManager::read` on any file. -/
def readOn (L : FileLayers σ) (fp : File) (b : ℕ) (n : ℤ) : StateT σ Kernel (ℤ × File) := do
  let nread := toInt32 (← layerCall L .read fp b n)
  return (nread, { fp with offset := addInt fp.offset nread })

/-- `VfsManager::write` on any file. The offset of an inode file is moved twice. -/
def writeOn (L : FileLayers σ) (fp : File) (b : ℕ) (n : ℤ) : StateT σ Kernel (ℤ × File) := do
  if fp.writable then
    let nwrite := toInt32 (← layerCall L .write fp b n)
    return (nwrite, if fp.type = .inode then moved fp nwrite
      else { fp with offset := addInt fp.offset nwrite })
  else return (-1, fp)

/-- A call of `VfsManager::read` or `VfsManager::write`. -/
def transfer (L : FileLayers σ) : Direction → File → ℕ → ℤ → StateT σ Kernel (ℤ × File)
  | .read => readOn L
  | .write => writeOn L

theorem readOn_ok {L : FileLayers σ} (h : readOn L fp b n s = .ok ((z, fp'), s')) :
    (∃ x, z = toInt32 x) ∧ fp' = { fp with offset := addInt fp.offset z } := by
  obtain ⟨x, s₁, -, h⟩ := bind_eq_ok.mp h
  cases h
  exact ⟨⟨x, rfl⟩, rfl⟩

/-- A write that returns was refused, or it has moved the offset. -/
theorem writeOn_ok {L : FileLayers σ} (h : writeOn L fp b n s = .ok ((z, fp'), s')) :
    (fp.writable = false ∧ z = -1 ∧ fp' = fp) ∨
      (fp.writable = true ∧ (∃ x, z = toInt32 x) ∧
        (fp' = { fp with offset := addInt fp.offset z } ∨ fp' = moved fp z)) := by
  rw [writeOn] at h
  split at h
  · rename_i hw
    obtain ⟨x, s₁, -, h⟩ := bind_eq_ok.mp h
    cases h
    refine .inr ⟨hw, ⟨x, rfl⟩, ?_⟩
    split
    · exact .inr rfl
    · exact .inl rfl
  · rename_i hw
    cases h
    exact .inl ⟨by simpa using hw, rfl, rfl⟩

theorem transfer_int {L : FileLayers σ} {d : Direction}
    (h : transfer L d fp b n s = .ok ((z, fp'), s')) : -2 ^ 31 ≤ z ∧ z < 2 ^ 31 := by
  cases d with
  | read =>
    obtain ⟨⟨x, rfl⟩, -⟩ := readOn_ok h
    exact toInt32_bounds x
  | write =>
    rcases writeOn_ok h with ⟨-, rfl, -⟩ | ⟨-, ⟨x, rfl⟩, -⟩
    · decide
    · exact toInt32_bounds x

theorem addInt_ne {x : ℕ} (h : -2 ^ 32 ≤ z) (hz : z < 0) : addInt x z ≠ x := by
  unfold addInt
  omega

theorem addInt_addInt (x : ℕ) (y z : ℤ) : addInt (addInt x y) z = addInt x (y + z) := by
  unfold addInt
  omega

def Unmoved (fp fp' : File) : Prop := fp'.offset = fp.offset ∧ fp'.size = fp.size

/-- A transfer that fails leaves the file where it was only when it is a write to a file that is
not open for writing. Any other failure has its -1 added to the offset. -/
theorem failed_unmoved_iff {L : FileLayers σ} {d : Direction}
    (h : transfer L d fp b n s = .ok ((z, fp'), s')) (hz : z < 0) :
    Unmoved fp fp' ↔ d = .write ∧ fp.writable = false := by
  have hint := transfer_int h
  cases d with
  | read =>
    obtain ⟨-, rfl⟩ := readOn_ok h
    refine iff_of_false ?_ (by simp)
    rintro ⟨ho, -⟩
    exact addInt_ne (by omega) hz ho
  | write =>
    rcases writeOn_ok h with ⟨hw, -, rfl⟩ | ⟨hw, -, rfl | rfl⟩
    · exact iff_of_true ⟨rfl, rfl⟩ ⟨rfl, hw⟩
    · refine iff_of_false ?_ (by simp [hw])
      rintro ⟨ho, -⟩
      exact addInt_ne (by omega) hz ho
    · refine iff_of_false ?_ (by simp [hw])
      rintro ⟨ho, -⟩
      -- an inode file is moved twice
      have ho : addInt (addInt fp.offset z) z = fp.offset := ho
      rw [addInt_addInt] at ho
      exact addInt_ne (by omega) (by omega) ho

/-- The layers of a kernel with FAT32 files: `mapped` tells where the task can be stored to and
`byte` what is read from it. -/
def fat32Layers (mapped : ℕ → Bool) (byte : ℕ → Option UInt8)
    (pipeRead pipeWrite : ℕ → ℤ → FsM ℤ) : FileLayers Fat32FileSystem where
  pipeRead := pipeRead
  pipeWrite := pipeWrite
  inodeRead r b off n := do
    let (nread, _) ← Fat32FileSystem.readInode r (fun j => mapped (b + j)) off (n % 2 ^ 32).toNat
    return nread
  inodeWrite r b off n :=
    Fat32FileSystem.writeInode r (fun j => byte (b + j)) off (n % 2 ^ 32).toNat

def pipeLayers (killed : Bool) : FileLayers (Pipe × UserBytes) where
  pipeRead b n := fun s =>
    match s.1.read killed b n s.2 with
    | (some i, s) => .ok (i, s)
    | (none, _) => .error .hang
  pipeWrite b n := fun s =>
    match s.1.write killed b n 0 s.2 with
    | (_, some i, p) => .ok (i, p, s.2)
    | (_, none, _) => .error .hang
  inodeRead _ _ _ _ := throw .fault
  inodeWrite _ _ _ _ := throw .fault

section Fat32

open Fat32FileSystem

variable {s s' : Fat32FileSystem} {r : InodeRef} {dst mapped : ℕ → Bool}
  {src byte : ℕ → Option UInt8} {off total fuel k : ℕ} {out out' : List UInt8}
  {pr pw : ℕ → ℤ → FsM ℤ} {pipeRead : (ℕ → Bool) → ℤ → FsM (ℤ × List UInt8)}
  {pipeWrite : (ℕ → Option UInt8) → ℤ → FsM ℤ}

theorem toInt32_toInt32 (x : ℤ) : toInt32 (toInt32 x) = toInt32 x := by
  have := toInt32_bounds x
  exact toInt32_of_lt this.1 this.2

theorem readLoop_int (h : readLoop r dst k fuel total off out s = .ok ((z, out'), s')) :
    toInt32 z = z := by
  induction fuel generalizing total off out s with
  | zero => cases h
  | succ fuel ih =>
    rw [readLoop] at h
    split at h
    · rw [get_bind] at h
      obtain ⟨cluster, s₁, -, h⟩ := bind_eq_ok.mp h
      obtain ⟨i, s₂, -, h⟩ := bind_eq_ok.mp h
      rw [get_bind] at h
      split at h
      · cases h
        rfl
      · obtain ⟨-, s₃, -, h⟩ := bind_eq_ok.mp h
        exact ih h
    · rw [pure_apply, Except.ok.injEq, Prod.mk.injEq, Prod.mk.injEq] at h
      rw [← h.1.1]
      exact toInt32_toInt32 _

theorem readInode_int (h : readInode r dst off k s = .ok ((z, out), s')) : toInt32 z = z := by
  obtain ⟨ip, s₁, -, h⟩ := bind_eq_ok.mp h
  split at h
  · cases h
    rfl
  · exact readLoop_int h

theorem writeLoop_int {stop : ℕ} (h : writeLoop r src k fuel total off s = .ok ((z, stop), s')) :
    toInt32 z = z := by
  induction fuel generalizing total off s with
  | zero => cases h
  | succ fuel ih =>
    rw [writeLoop] at h
    split at h
    · rw [get_bind] at h
      obtain ⟨cluster, s₁, -, h⟩ := bind_eq_ok.mp h
      obtain ⟨i, s₂, -, h⟩ := bind_eq_ok.mp h
      rw [get_bind] at h
      simp only [modify_bind] at h
      split at h
      · cases h
        rfl
      · obtain ⟨-, s₃, -, h⟩ := bind_eq_ok.mp h
        obtain ⟨-, s₄, -, h⟩ := bind_eq_ok.mp h
        exact ih h
    · rw [pure_apply, Except.ok.injEq, Prod.mk.injEq, Prod.mk.injEq] at h
      rw [← h.1.1]
      exact toInt32_toInt32 _

theorem writeInode_int (h : writeInode r src off k s = .ok (z, s')) : toInt32 z = z := by
  obtain ⟨ip, s₁, -, h⟩ := bind_eq_ok.mp h
  split at h
  · cases h
    rfl
  · obtain ⟨⟨total, stop⟩, s₂, hw, h⟩ := bind_eq_ok.mp h
    obtain ⟨ip', s₃, -, h⟩ := bind_eq_ok.mp h
    have hz : z = total := by
      simp only at h
      split at h
      · obtain ⟨-, s₄, -, h⟩ := bind_eq_ok.mp h
        obtain ⟨-, s₅, -, h⟩ := bind_eq_ok.mp h
        cases h
        rfl
      · obtain ⟨-, s₅, -, h⟩ := bind_eq_ok.mp h
        cases h
        rfl
    rw [hz]
    exact writeLoop_int hw

theorem readOn_fat32 (ht : fp.type = .inode)
    (h : read pipeRead fp (fun j => mapped (b + j)) n s = .ok ((z, out, fp'), s')) :
    readOn (fat32Layers mapped byte pr pw) fp b n s = .ok ((z, fp'), s') := by
  obtain ⟨size, ref, readable, writable, type, inode, offset⟩ := fp
  subst ht
  obtain ⟨⟨x, out'⟩, s₁, hr, h⟩ := bind_eq_ok.mp h
  cases h
  have hcall : layerCall (fat32Layers mapped byte pr pw) .read
      ⟨size, ref, readable, writable, .inode, inode, offset⟩ b n s = .ok (z, s') :=
    (bind_of_ok hr).trans rfl
  rw [readOn, bind_of_ok hcall, readInode_int hr]
  rfl

/-- Writing an inode file of FAT32 is `writeOn` over its layers. -/
theorem writeOn_fat32 (ht : fp.type = .inode)
    (h : write pipeWrite fp (fun j => byte (b + j)) n s = .ok ((z, fp'), s')) :
    writeOn (fat32Layers mapped byte pr pw) fp b n s = .ok ((z, fp'), s') := by
  cases hw : fp.writable with
  | false =>
    rw [write, hw] at h
    rw [writeOn, hw]
    cases h
    rfl
  | true =>
    cases hi : inodeWrite fp.inode (fun j => byte (b + j)) fp.offset n s with
    | error e =>
      rw [write_inode_error ht hw hi] at h
      cases h
    | ok v =>
      obtain ⟨x, s₁⟩ := v
      rw [write_inode ht hw hi] at h
      cases h
      have hcall : layerCall (fat32Layers mapped byte pr pw) .write fp b n s = .ok (z, s') := by
        unfold layerCall
        simp only [ht]
        exact hi
      rw [writeOn, if_pos hw, bind_of_ok hcall, writeInode_int hi, if_pos ht]
      rfl

end Fat32

def readEnd : File := ⟨0, 1, true, false, .pipe, .root, 0⟩

theorem failed_unmoved_killed : ∃ fp' s',
    transfer (pipeLayers true) .read readEnd 0 1 (Pipe.create fun _ => 0, fun _ => none) =
      .ok ((-1, fp'), s') ∧ ¬Unmoved readEnd fp' :=
  ⟨_, _, rfl, fun h => absurd ((failed_unmoved_iff (L := pipeLayers true) (d := .read) (n := 1)
    (b := 0) (s := (Pipe.create fun _ => 0, fun _ => none)) (z := -1) rfl (by decide)).mp h).1
      (by decide)⟩

/-- A read into a buffer that is not mapped returns -1 and leaves the file at its offset of
`2 ^ 64 - 1`. -/
theorem failed_read_moves : ∃ fp' s',
    transfer (fat32Layers (fun _ => false) (fun _ => none) (fun _ _ => throw .hang)
      fun _ _ => throw .hang) .read emptyFile 0 1 Fat32FileSystem.smallVolume =
        .ok ((-1, fp'), s') ∧ fp'.offset = 2 ^ 64 - 1 ∧ ¬Unmoved emptyFile fp' :=
  ⟨_, _, rfl, rfl, fun h => absurd h.1 (by decide)⟩

end VfsManager

end StartOS
