import StartOS.Fs.FileRun

/-! # Open files

`VfsManager::read` and `VfsManager::write` move the offset of a `struct file`
along with the bytes. What a pipe does is left to the caller of the model.
-/

namespace StartOS

open Fat32FileSystem Hoare Linked

/-- The tag of a `struct file`. -/
inductive FileType
  | none
  | pipe
  | entry
  | device
  | inode
  deriving DecidableEq, Repr

structure File where
  size : ℕ
  ref : ℤ
  readable : Bool
  writable : Bool
  type : FileType
  inode : InodeRef
  offset : ℕ

def addInt (x : ℕ) (n : ℤ) : ℕ := ((x + n) % 2 ^ 64).toNat

namespace VfsManager

def inodeRead (r : InodeRef) (dst : ℕ → Bool) (off : ℕ) (n : ℤ) : FsM (ℤ × List UInt8) :=
  readInode r dst (off % 2 ^ 32) (n % 2 ^ 32).toNat

def inodeWrite (r : InodeRef) (src : ℕ → Option UInt8) (off : ℕ) (n : ℤ) : FsM ℤ :=
  writeInode r src (off % 2 ^ 32) (n % 2 ^ 32).toNat

section

variable (pipeRead : (ℕ → Bool) → ℤ → FsM (ℤ × List UInt8))
  (pipeWrite : (ℕ → Option UInt8) → ℤ → FsM ℤ)

/-- `VfsManager::read`: the result, the bytes stored and the file afterwards. -/
def read (fp : File) (dst : ℕ → Bool) (n : ℤ) : FsM (ℤ × List UInt8 × File) := do
  let (nread, out) ←
    match fp.type with
    | .pipe => pipeRead dst n
    | .inode => inodeRead fp.inode dst fp.offset n
    | _ => throw (.panic "unknown file type")
  return (nread, out, { fp with offset := addInt fp.offset nread })

/-- `VfsManager::write`. The offset of an inode file moves both in its case and at the end. -/
def write (fp : File) (src : ℕ → Option UInt8) (n : ℤ) : FsM (ℤ × File) := do
  if fp.writable then
    let ((nwrite, fp) : ℤ × File) ←
      match fp.type with
      | .pipe => do
        let nwrite ← pipeWrite src n
        pure (nwrite, fp)
      | .inode => do
        let nwrite ← inodeWrite fp.inode src fp.offset n
        let fp := { fp with offset := addInt fp.offset nwrite }
        let stop := addInt fp.offset nwrite
        pure (nwrite, { fp with size := if stop > fp.size then stop else fp.size })
      | _ => throw (.panic "unknown file type")
    return (nwrite, { fp with offset := addInt fp.offset nwrite })
  else return (-1, fp)

def rewind (fp : File) : FsM File := do
  if fp.ref < 1 then throw (.panic "filerewind")
  return { fp with offset := 0 }

def writeAll : File → List (List UInt8) → FsM (List ℤ × File)
  | fp, [] => return ([], fp)
  | fp, b :: bs => do
    let (z, fp) ← write pipeWrite fp (fun j => b[j]?) b.length
    let (zs, fp) ← writeAll fp bs
    return (z :: zs, fp)

def readAll : File → List ℕ → FsM (List UInt8 × File)
  | fp, [] => return ([], fp)
  | fp, n :: ns => do
    let (_, out, fp) ← read pipeRead fp (fun _ => true) n
    let (outs, fp) ← readAll fp ns
    return (out ++ outs, fp)

end

def HasContent (s : Fat32FileSystem) (r : InodeRef) (a : List UInt8) : Prop :=
  ∃ ip l, s.inode? r = some ip ∧ Chain s.entry endOfCluster (s.startOf r ip) l ∧
    a.length = ip.sz ∧ ∀ x < ip.sz, a[x]? = some (fileByte s l x)

/-- The buffers `bs` are written in full, the file holds their concatenation, offset and size
are its length, and reading from the start gives it back. -/
def StreamLaw (pipeRead : (ℕ → Bool) → ℤ → FsM (ℤ × List UInt8))
    (pipeWrite : (ℕ → Option UInt8) → ℤ → FsM ℤ) (s : Fat32FileSystem) (fp : File)
    (bs : List (List UInt8)) : Prop :=
  ∃ fp' s', writeAll pipeWrite fp bs s = .ok ((bs.map fun b => (b.length : ℤ), fp'), s') ∧
    HasContent s' fp.inode bs.flatten ∧ fp'.offset = bs.flatten.length ∧
    fp'.size = bs.flatten.length ∧
    ∀ ns : List ℕ, (∀ n ∈ ns, n < 2 ^ 31) → ns.sum = bs.flatten.length →
      ∃ fp'' s'', (do let fp ← rewind fp'; readAll pipeRead fp ns : FsM _) s' =
        .ok ((bs.flatten, fp''), s'')

/-- A file just opened on an empty inode for reading and writing. -/
structure JustOpened (fp : File) (r : InodeRef) : Prop where
  type : fp.type = .inode
  inode : fp.inode = r
  readable : fp.readable = true
  writable : fp.writable = true
  ref : fp.ref = 1
  offset : fp.offset = 0
  size : fp.size = 0

variable {pipeRead : (ℕ → Bool) → ℤ → FsM (ℤ × List UInt8)}
  {pipeWrite : (ℕ → Option UInt8) → ℤ → FsM ℤ} {s s' : Fat32FileSystem} {S : Set ℕ}
  {ch : ℕ → List ℕ} {R : Set InodeRef} {r : InodeRef} {A : InodeRef → List UInt8} {fp fp' : File}
  {b : List UInt8} {bs : List (List UInt8)} {zs : List ℤ} {ip : Inode} {z : ℤ}

theorem hasContent (h : Sim s S ch R A) (hr : r ∈ R) : HasContent s r (A r) := by
  obtain ⟨ip, hip⟩ := h.exists_inode hr
  exact ⟨ip, ch (s.startOf r ip), hip,
    h.inv.table.chains.chain _ (h.inv.table.cursor_of hr hip).1, h.length r hr ip hip,
    h.bytes r hr ip hip⟩

theorem addInt_of_lt {x n : ℕ} (h : x + n < 2 ^ 64) : addInt x n = x + n := by
  rw [addInt, Int.emod_eq_of_lt (by omega) (by omega)]
  omega

def moved (fp : File) (z : ℤ) : File :=
  let off := addInt fp.offset z
  { fp with
    offset := addInt off z
    size := if addInt off z > fp.size then addInt off z else fp.size }

theorem write_inode {src : ℕ → Option UInt8} {n : ℤ} (ht : fp.type = .inode)
    (hw : fp.writable = true) (h : inodeWrite fp.inode src fp.offset n s = .ok (z, s')) :
    write pipeWrite fp src n s = .ok ((z, moved fp z), s') := by
  obtain ⟨size, ref, readable, writable, type, inode, offset⟩ := fp
  subst ht hw
  have h' : inodeWrite inode src offset n s = .ok (z, s') := h
  rw [write, if_pos rfl]
  simp only
  rw [bind_of_ok h']
  rfl

theorem write_inode_error {src : ℕ → Option UInt8} {n : ℤ} {e : Halt} (ht : fp.type = .inode)
    (hw : fp.writable = true) (h : inodeWrite fp.inode src fp.offset n s = .error e) :
    write pipeWrite fp src n s = .error e := by
  obtain ⟨size, ref, readable, writable, type, inode, offset⟩ := fp
  subst ht hw
  have h' : inodeWrite inode src offset n s = .error e := h
  rw [write, if_pos rfl]
  simp only
  rw [bind_of_error h']

theorem read_inode {dst : ℕ → Bool} {n : ℤ} {out : List UInt8} (ht : fp.type = .inode)
    (h : inodeRead fp.inode dst fp.offset n s = .ok ((z, out), s')) :
    read pipeRead fp dst n s = .ok ((z, out, { fp with offset := addInt fp.offset z }), s') := by
  obtain ⟨size, ref, readable, writable, type, inode, offset⟩ := fp
  subst ht
  rw [read]
  simp only
  rw [bind_of_ok h]
  rfl

theorem moved_nat {k : ℕ} (h : fp.offset + 2 * k < 2 ^ 64) :
    (moved fp k).offset = fp.offset + 2 * k := by
  simp only [moved]
  rw [addInt_of_lt (x := fp.offset) (by omega), addInt_of_lt (by omega)]
  omega

theorem write_nil (h : Sim s S ch R A) (hr : r ∈ R) (hf : JustOpened fp r) :
    ∃ ch' s', write pipeWrite fp (fun j => ([] : List UInt8)[j]?) 0 s = .ok ((0, fp), s') ∧
      Sim s' S ch' R A := by
  obtain ⟨ip, hip⟩ := h.exists_inode hr
  obtain ⟨ch', s', hok, hsim⟩ := h.writeInode_accept (w := []) hr hip (Nat.zero_le _)
    (by simp) (s.room_zero.mono (by simp))
  have hsame : Function.update A r (splice (A r) 0 []) = A := by simp [splice]
  have hfp : moved fp 0 = fp := by
    have h₁ := hf.offset
    have h₂ := hf.size
    obtain ⟨size, _, _, _, _, _, offset⟩ := fp
    subst h₁ h₂
    rfl
  refine ⟨ch', s', ?_, hsame ▸ hsim⟩
  have hw : inodeWrite fp.inode (fun j => ([] : List UInt8)[j]?) fp.offset 0 s = .ok (0, s') := by
    rw [inodeWrite, hf.inode, hf.offset]
    exact hok
  rw [write_inode hf.type hf.writable hw, hfp]

theorem writeAll_nil (h : Sim s S ch R A) (hr : r ∈ R) (hf : JustOpened fp r)
    (hbs : ∀ b ∈ bs, b = []) :
    ∃ ch' s', writeAll pipeWrite fp bs s = .ok ((bs.map fun b => (b.length : ℤ), fp), s') ∧
      Sim s' S ch' R A := by
  induction bs generalizing s ch with
  | nil => exact ⟨ch, s, rfl, h⟩
  | cons b bs ih =>
    obtain rfl : b = [] := hbs b (by simp)
    obtain ⟨ch₁, s₁, hok, h₁⟩ := write_nil h hr hf
    obtain ⟨ch', s', hok', h'⟩ := ih h₁ fun b hb => hbs b (by simp [hb])
    refine ⟨ch', s', ?_, h'⟩
    rw [writeAll, List.length_nil, Nat.cast_zero, bind_of_ok hok]
    simp only [bind_of_ok hok', pure_apply]
    rfl

theorem readAll_zero (h : Sim s S ch R A) (hr : r ∈ R) (hf : JustOpened fp r) {ns : List ℕ}
    (hns : ∀ n ∈ ns, n = 0) :
    ∃ s', readAll pipeRead fp ns s = .ok (([], fp), s') := by
  induction ns generalizing s ch with
  | nil => exact ⟨s, rfl⟩
  | cons n ns ih =>
    obtain rfl : n = 0 := hns n (by simp)
    obtain ⟨ch₁, s₁, hok, h₁⟩ := h.readInode (n := 0) hr (by norm_num)
    obtain ⟨s', hok'⟩ := ih h₁ fun n hn => hns n (by simp [hn])
    refine ⟨s', ?_⟩
    have hrd : inodeRead fp.inode (fun _ => true) fp.offset ((0 : ℕ) : ℤ) s = .ok ((0, []), s₁) := by
      rw [inodeRead, hf.inode, hf.offset]
      simpa using hok
    have hfp : { fp with offset := addInt fp.offset 0 } = fp := by
      have h₁ := hf.offset
      obtain ⟨_, _, _, _, _, _, offset⟩ := fp
      subst h₁
      rfl
    have hone : read pipeRead fp (fun _ => true) (0 : ℕ) s =
        .ok ((0, [], { fp with offset := addInt fp.offset 0 }), s₁) := read_inode hf.type hrd
    rw [hfp] at hone
    rw [readAll, bind_of_ok hone]
    simp only [bind_of_ok hok', pure_apply]
    rfl

/-- A buffer that is not empty moves the offset twice as far as the file goes, so the law fails
there or at the next call. -/
theorem writeAll_drift (h : Sim s S ch R A) (hr : r ∈ R) (hA : A r = []) (hf : JustOpened fp r)
    (hlen : ∀ b ∈ bs, b.length < 2 ^ 31) (hne : ∃ b ∈ bs, b ≠ [])
    (hok : writeAll pipeWrite fp bs s = .ok ((zs, fp'), s')) :
    (zs ≠ bs.map fun b => (b.length : ℤ)) ∨ fp'.offset ≠ bs.flatten.length := by
  induction bs generalizing s ch zs with
  | nil => simp at hne
  | cons b bs ih =>
    rw [writeAll, bind_eq_ok] at hok
    obtain ⟨⟨z, fp₁⟩, s₁, hfirst, hok⟩ := hok
    rw [bind_eq_ok] at hok
    obtain ⟨⟨zs', fp₂⟩, s₂, hrest, hok⟩ := hok
    cases hok
    by_cases hb : b = []
    · subst hb
      obtain ⟨ch₁, s₁', hok', h₁⟩ := write_nil h hr hf
      rw [List.length_nil, Nat.cast_zero, hok'] at hfirst
      cases hfirst
      rcases ih h₁ (fun b hb => hlen b (by simp [hb])) (by simpa using hne) hrest with hz | ho
      · exact Or.inl fun he => hz (List.cons.inj he).2
      · exact Or.inr (by simpa using ho)
    · obtain ⟨ip, hip⟩ := h.exists_inode hr
      have hb31 : b.length < 2 ^ 31 := hlen b (by simp)
      have hb0 : 0 < b.length := List.length_pos_iff.mpr hb
      have hn : ((b.length : ℤ) % 2 ^ 32).toNat = b.length := by omega
      by_cases hroom : s.Room ((0 + b.length + 4095) / 4096 - (ch (s.startOf r ip)).length)
      · obtain ⟨ch₁, s₁', hw, h₁⟩ := h.writeInode_accept hr hip (Nat.zero_le _)
          (by omega) hroom
        have hiw : inodeWrite fp.inode (fun j => b[j]?) fp.offset b.length s =
            .ok ((b.length : ℤ), s₁') := by
          rw [inodeWrite, hf.inode, hf.offset, hn]
          exact hw
        rw [write_inode hf.type hf.writable hiw] at hfirst
        cases hfirst
        have hoff : (moved fp b.length).offset = 2 * b.length := by
          rw [moved_nat (by rw [hf.offset]; omega), hf.offset, zero_add]
        cases bs with
        | nil =>
          cases hrest
          refine Or.inr ?_
          rw [hoff]
          simp only [List.flatten_cons, List.flatten_nil, List.append_nil]
          omega
        | cons d ds =>
          -- the second write starts behind the end of the file
          obtain ⟨ip₁, hip₁⟩ := h₁.exists_inode hr
          have hsz : b.length = ip₁.sz := by
            rw [← h₁.length r hr ip₁ hip₁, Function.update_self, hA]
            simp [splice]
          have hiw₁ : inodeWrite (moved fp b.length).inode (fun j => d[j]?)
              (moved fp b.length).offset d.length s₁ = .ok (-1, s₁) := by
            have hi : (moved fp b.length).inode = r := hf.inode
            rw [inodeWrite, hi, hoff, Nat.mod_eq_of_lt (by omega)]
            exact Sim.writeInode_reject hip₁ (by omega) _
          have htype : (moved fp b.length).type = .inode := hf.type
          have hwritable : (moved fp b.length).writable = true := hf.writable
          rw [writeAll, bind_of_ok (write_inode htype hwritable hiw₁)] at hrest
          simp only [bind_eq_ok] at hrest
          obtain ⟨⟨zs'', fp₂⟩, s₂, -, hrest⟩ := hrest
          cases hrest
          refine Or.inl fun he => ?_
          have hz : (-1 : ℤ) = d.length := (List.cons.inj (List.cons.inj he).2).1
          omega
      · obtain ⟨e, he⟩ := h.writeInode_stuck hr hip (Nat.zero_le _) (by omega) hroom
        have hiw : inodeWrite fp.inode (fun j => b[j]?) fp.offset b.length s = .error e := by
          rw [inodeWrite, hf.inode, hf.offset, hn]
          exact he
        rw [write_inode_error hf.type hf.writable hiw] at hfirst
        cases hfirst

/-- Writing to a file just opened on an empty inode keeps the law exactly when there is nothing
to write. -/
theorem streamLaw_iff (h : Sim s S ch R A) (hr : r ∈ R) (hA : A r = []) (hf : JustOpened fp r)
    (hlen : ∀ b ∈ bs, b.length < 2 ^ 31) :
    StreamLaw pipeRead pipeWrite s fp bs ↔ ∀ b ∈ bs, b = [] := by
  constructor
  · rintro ⟨fp', s', hok, -, hoff, -⟩
    by_contra hne
    push Not at hne
    rcases writeAll_drift h hr hA hf hlen hne hok with hz | ho
    · exact hz rfl
    · exact ho hoff
  · intro hbs
    obtain ⟨ch', s', hok, h'⟩ := writeAll_nil h hr hf hbs
    have hflat : bs.flatten = [] := List.flatten_eq_nil_iff.mpr hbs
    refine ⟨fp, s', hok, ?_, ?_, ?_, fun ns _ hsum => ?_⟩
    · rw [hflat, hf.inode, ← hA]
      exact hasContent h' hr
    · rw [hflat, hf.offset, List.length_nil]
    · rw [hflat, hf.size, List.length_nil]
    · rw [hflat, List.length_nil] at hsum
      rw [hflat]
      have hfp : rewind fp s' = .ok (fp, s') := by
        have h₁ := hf.offset
        have h₂ := hf.ref
        obtain ⟨_, ref, _, _, _, _, offset⟩ := fp
        subst h₁ h₂
        rfl
      obtain ⟨s'', hread⟩ := readAll_zero h' hr hf fun n hn =>
        List.sum_eq_zero_iff_forall_eq_nat.mp hsum n hn
      exact ⟨fp, s'', by rw [bind_of_ok hfp]; exact hread⟩

def emptyVolume : Fat32FileSystem :=
  smallVolume.setInode (.pos 59392) { freshInode 2 59392 8192 with sz := 0 }

theorem sim_emptyVolume : Sim emptyVolume {2, 4} (fun a => if a = 2 then [2, 3] else [4])
    {.pos 59392} fun _ => [] := by
  refine ⟨filesInv_smallVolume.setSize rfl rfl (Nat.zero_le _), ?_, ?_⟩
  · rintro r rfl ip hip
    cases hip
    rfl
  · rintro r rfl ip hip x hx
    cases hip
    exact absurd hx (Nat.not_lt_zero x)

def emptyFile : File := ⟨0, 1, true, true, .inode, .pos 59392, 0⟩

theorem justOpened_emptyFile :
    JustOpened emptyFile (.pos 59392) := ⟨rfl, rfl, rfl, rfl, rfl, rfl, rfl⟩

theorem streamLaw_emptyVolume :
    StreamLaw (fun _ _ => throw .hang) (fun _ _ => throw .hang) emptyVolume emptyFile [[]] :=
  (streamLaw_iff sim_emptyVolume rfl rfl justOpened_emptyFile (by simp)).mpr (by simp)

/-- Two one-byte buffers break the law. -/
theorem not_streamLaw_emptyVolume : ¬ StreamLaw (fun _ _ => throw .hang) (fun _ _ => throw .hang)
    emptyVolume emptyFile [[1], [2]] := by
  rintro ⟨fp', s', hok, -, hoff, -⟩
  rcases writeAll_drift sim_emptyVolume rfl rfl justOpened_emptyFile (by simp) ⟨[1], by simp⟩ hok
    with hz | ho
  · exact hz rfl
  · exact ho hoff

end VfsManager

end StartOS
