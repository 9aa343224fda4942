import StartOS.Fs.DirOps
import StartOS.Fs.FatRun

/-! # The long entries of a name

`Create` cuts a name into pieces of 13 bytes, whatever its length: the last piece
goes on behind the terminator. This module lists what `Create` hands to
`WriteInode`, says which bytes of the caller's buffer end up there, and reads a
name back out of its entries.
-/

namespace StartOS

namespace CString

def lfnNum (name : CString) : ℕ := (name.strlen + 12) / 13

structure Same (name name' : CString) : Prop where
  strlen : name.strlen = name'.strlen
  bytes : ∀ i < name.strlen, name.bytes i = name'.bytes i

theorem lastDot_congr {p q : ByteMem} {n : ℕ} (h : ∀ i < n, p i = q i) :
    lastDot p n = lastDot q n := by
  induction n with
  | zero => rfl
  | succ n ih => rw [lastDot, lastDot, h n (Nat.lt_succ_self n), ih fun i hi => h i (Nat.lt_succ_of_lt hi)]

theorem lastDot_lt {p : ByteMem} {n dot : ℕ} (h : lastDot p n = some dot) : dot < n := by
  induction n with
  | zero => cases h
  | succ n ih =>
    rw [lastDot] at h
    split at h
    · cases h
      exact Nat.lt_succ_self _
    · exact Nat.lt_succ_of_lt (ih h)

end CString

namespace Fat32FileSystem

open Hoare

variable {s s' s₁ : Fat32FileSystem} {dir : InodeRef} {name name' : CString} {mode n i k seq off : ℕ}
  {checksum : UInt8} {dst : ByteMem}

section Trace

/-! ## What `Create` writes -/

/-- The loop of `Create` with the entries it hands to `WriteInode` and their offsets. -/
def longTrace (dir : InodeRef) (name : CString) (checksum : UInt8) (lfnNum : ℕ) :
    ℕ → ℕ → ℕ → FsM (List (ℕ × ByteMem))
  | 0, _, _ => return []
  | n + 1, seq, off => do
    let entry := longEntry name checksum lfnNum seq
    let _ ← writeBytes dir entry off 32
    let rest ← longTrace dir name checksum lfnNum n (seq + 1) ((off + 2 ^ 32 - 32) % 2 ^ 32)
    return (off, entry) :: rest

/-- `Create` up to its loop: the offset of the short entry, that entry and its checksum. -/
def createStart (dir : InodeRef) (name : CString) (mode : ℕ) : FsM (ℕ × ByteMem × UInt8) := do
  let off := ((← findFreeEntry dir (name.lfnNum + 1)) + name.lfnNum * 32) % 2 ^ 32
  let cluster ← allocCluster
  let entry ← fillShortFile (fun _ _ => 0) name cluster mode
  let _ ← writeBytes dir entry off 32
  let (_, out) ← readInode dir (fun _ => true) off 32
  if name.lfnNum ≥ 255 then throw .hang
  return (off, entry, fatChecksum (overlay (fun _ => 0) out))

/-- `Create` with the entries it hands to `WriteInode` and their offsets, in the order of the
calls. -/
def createTrace (dir : InodeRef) (name : CString) (mode : ℕ) : FsM (List (ℕ × ByteMem)) := do
  let (off, entry, checksum) ← createStart dir name mode
  let rest ← longTrace dir name checksum name.lfnNum name.lfnNum 1 ((off + 2 ^ 32 - 32) % 2 ^ 32)
  return (off, entry) :: rest

theorem createLoop_eq_longTrace : createLoop dir name checksum k n seq off = do
    let _ ← longTrace dir name checksum k n seq off
    return () := by
  induction n generalizing seq off with
  | zero => rfl
  | succ n ih => simp only [createLoop, longTrace, ih, bind_assoc, pure_bind]

theorem create_eq_createTrace : create dir name mode = do
    let _ ← createTrace dir name mode
    return 0 := by
  rw [create, ← CString.lfnNum, createTrace, createStart]
  simp only [bind_assoc, createLoop_eq_longTrace]
  refine bind_congr fun pos => bind_congr fun cluster => bind_congr fun entry => ?_
  refine bind_congr fun _ => bind_congr fun out => ?_
  by_cases hn : name.lfnNum ≥ 255
  · simp only [if_pos hn]
    rfl
  · simp only [if_neg hn, pure_bind]

end Trace

section Entry

/-! ## One entry -/

def charPos (i : ℕ) : ℕ := if i < 5 then 1 + 2 * i else if i < 11 then 4 + 2 * i else 6 + 2 * i

theorem copyCharToWchar_of_not_mem {entry src : ByteMem} {a x : ℕ} (h : x < a ∨ a + 2 * n ≤ x) :
    copyCharToWchar entry a src n x = entry x :=
  ByteMem.blit_of_not_mem h

theorem copyCharToWchar_of_mem {entry src : ByteMem} {a j : ℕ} (h : j < n) :
    copyCharToWchar entry a src n (a + 2 * j) = src j := by
  rw [copyCharToWchar, ByteMem.blit_of_mem (by omega) (by omega), Nat.add_sub_cancel_left,
    if_pos (Nat.mul_mod_right 2 j), Nat.mul_div_cancel_left j two_pos]

theorem longEntry_charPos (checksum : UInt8) (k : ℕ) (hi : i < 13) :
    longEntry name checksum k seq (charPos i) = name.bytes (13 * (seq - 1) + i) := by
  rw [charPos, longEntry]
  by_cases h5 : i < 5
  · rw [if_pos h5, ByteMem.fill_of_not_mem (by omega), ByteMem.fill_of_not_mem (by omega),
      copyCharToWchar_of_not_mem (by omega), copyCharToWchar_of_not_mem (by omega),
      copyCharToWchar_of_mem h5]
  rw [if_neg h5]
  by_cases h11 : i < 11
  · have hpos : 4 + 2 * i = 14 + 2 * (i - 5) := by omega
    rw [if_pos h11, hpos, ByteMem.fill_of_not_mem (by omega), ByteMem.fill_of_not_mem (by omega),
      copyCharToWchar_of_not_mem (by omega), copyCharToWchar_of_mem (by omega)]
    exact congrArg name.bytes (by omega)
  · have hpos : 6 + 2 * i = 28 + 2 * (i - 11) := by omega
    rw [if_neg h11, hpos, ByteMem.fill_of_not_mem (by omega), ByteMem.fill_of_not_mem (by omega),
      copyCharToWchar_of_mem (by omega)]
    exact congrArg name.bytes (by omega)

/-- Two long entries of the same number are the same when they hold the same characters. -/
theorem longEntry_eq_iff : longEntry name checksum k seq = longEntry name' checksum k seq ↔
    ∀ i < 13, name.bytes (13 * (seq - 1) + i) = name'.bytes (13 * (seq - 1) + i) := by
  constructor
  · intro h i hi
    rw [← longEntry_charPos checksum k hi, h, longEntry_charPos checksum k hi]
  · intro h
    have hcopy (entry : ByteMem) (a b n : ℕ) (hb : b + n ≤ 13) :
        copyCharToWchar entry a (fun i => name.bytes (13 * (seq - 1) + (b + i))) n =
          copyCharToWchar entry a (fun i => name'.bytes (13 * (seq - 1) + (b + i))) n := by
      refine ByteMem.blit_congr fun i hi => ?_
      split
      · exact h _ (by omega)
      · rfl
    have hfirst (entry : ByteMem) :
        copyCharToWchar entry 1 (fun i => name.bytes (13 * (seq - 1) + i)) 5 =
          copyCharToWchar entry 1 (fun i => name'.bytes (13 * (seq - 1) + i)) 5 := by
      simpa only [Nat.zero_add] using hcopy entry 1 0 5 (by decide)
    simp only [longEntry, hfirst, hcopy _ 14 5 6 (by decide), hcopy _ 28 11 2 (by decide)]

end Entry

section SameName

/-! ## Two buffers with one string -/

theorem shortName_congr (h : name.Same name') (entry : ByteMem) :
    shortName entry name = shortName entry name' := by
  have hdot : name.strrchr = name'.strrchr := by
    rw [CString.strrchr, CString.strrchr, ← h.strlen]
    exact CString.lastDot_congr h.bytes
  have hbase {m : ByteMem} {n : ℕ} (hn : n ≤ name.strlen) :
      m.blit 0 n name.bytes = m.blit 0 n name'.bytes :=
    ByteMem.blit_congr fun i hi => h.bytes i (hi.trans_le hn)
  rw [shortName, shortName, ← hdot, ← h.strlen]
  cases hd : name.strrchr with
  | none =>
    dsimp only
    by_cases hlong : name.strlen > 8
    · rw [if_pos hlong, if_pos hlong, hbase (by omega)]
    · rw [if_neg hlong, if_neg hlong, hbase le_rfl]
  | some dot =>
    have hlt : dot < name.strlen := CString.lastDot_lt hd
    have hext {m : ByteMem} :
        m.blit 8 (min (name.strlen - (dot + 1)) 3) (fun i => name.bytes (dot + 1 + i)) =
          m.blit 8 (min (name.strlen - (dot + 1)) 3) fun i => name'.bytes (dot + 1 + i) :=
      ByteMem.blit_congr fun i hi => h.bytes _ (by omega)
    dsimp only
    rw [hext]
    by_cases hlong : dot > 8
    · rw [if_pos hlong, if_pos hlong, hbase (by omega)]
    · rw [if_neg hlong, if_neg hlong, hbase hlt.le]

theorem fillShortFile_congr (h : name.Same name') (entry : Stamp → ByteMem) (cluster mode : ℕ) :
    fillShortFile entry name cluster mode = fillShortFile entry name' cluster mode := by
  unfold fillShortFile
  simp only [shortName_congr h]

theorem longTrace_eq {t : List (ℕ × ByteMem)}
    (hok : longTrace dir name checksum k n seq off s = .ok (t, s')) :
    t.map Prod.snd = (List.range n).map fun j => longEntry name checksum k (seq + j) := by
  induction n generalizing seq off s t with
  | zero =>
    cases hok
    rfl
  | succ n ih =>
    obtain ⟨v, s₁, hw, hok⟩ := bind_eq_ok.mp hok
    obtain ⟨rest, s₂, hrest, hok⟩ := bind_eq_ok.mp hok
    cases hok
    rw [List.map_cons, ih hrest, List.range_succ_eq_map, List.map_cons, List.map_map]
    refine congrArg _ (List.map_congr_left fun j _ => ?_)
    exact congrArg _ (by simp only [Nat.succ_eq_add_one]; omega)

theorem longTrace_congr (h : ∀ j < n, longEntry name checksum k (seq + j) =
    longEntry name' checksum k (seq + j)) :
    longTrace dir name checksum k n seq off = longTrace dir name' checksum k n seq off := by
  induction n generalizing seq off with
  | zero => rfl
  | succ n ih =>
    have hlater : ∀ j < n, longEntry name checksum k (seq + 1 + j) =
        longEntry name' checksum k (seq + 1 + j) := fun j hj => by
      have := h (j + 1) (by omega)
      rwa [show seq + (j + 1) = seq + 1 + j by omega] at this
    have hfirst : longEntry name checksum k seq = longEntry name' checksum k seq := h 0 n.succ_pos
    rw [longTrace, longTrace, ih hlater, hfirst]

theorem CString.Same.lfnNum (h : name.Same name') : name'.lfnNum = name.lfnNum := by
  rw [CString.lfnNum, CString.lfnNum, h.strlen]

theorem createStart_congr (h : name.Same name') :
    createStart dir name mode = createStart dir name' mode := by
  unfold createStart
  simp only [CString.Same.lfnNum h, fillShortFile_congr h]

/-- Two calls with one string write the same entries exactly when the buffers agree up to the end
of the last piece of 13. -/
theorem createTrace_same_iff {t : List (ℕ × ByteMem)} (h : name.Same name')
    (hok : createTrace dir name mode s = .ok (t, s₁)) :
    (∃ s₂, createTrace dir name' mode s = .ok (t, s₂)) ↔
      ∀ i, name.strlen < i → i < 13 * name.lfnNum → name.bytes i = name'.bytes i := by
  constructor
  · rintro ⟨s₂, hok'⟩ i hlt hi
    obtain ⟨⟨off, entry, checksum⟩, s₃, hstart, hrun⟩ := bind_eq_ok.mp hok
    rw [createTrace, ← createStart_congr h, bind_of_ok hstart, CString.Same.lfnNum h] at hok'
    obtain ⟨rest, s₄, hlong, hrun⟩ := bind_eq_ok.mp hrun
    obtain ⟨rest', s₅, hlong', hrun'⟩ := bind_eq_ok.mp hok'
    cases hrun
    cases hrun'
    have heq := (longTrace_eq hlong).symm.trans (longTrace_eq hlong')
    have hentry := List.map_inj_left.mp heq (i / 13) (List.mem_range.mpr (by omega))
    have hbyte := longEntry_eq_iff.mp hentry (i % 13) (Nat.mod_lt i (by decide))
    rwa [Nat.add_sub_cancel_left, Nat.div_add_mod] at hbyte
  · intro hb
    have hall (i : ℕ) (hi : i < 13 * name.lfnNum) : name.bytes i = name'.bytes i := by
      rcases lt_trichotomy i name.strlen with hlt | rfl | hgt
      · exact h.bytes i hlt
      · rw [name.nul, h.strlen, name'.nul]
      · exact hb i hgt hi
    have hlong (checksum : UInt8) (off : ℕ) :
        longTrace dir name checksum name.lfnNum name.lfnNum 1 off =
          longTrace dir name' checksum name.lfnNum name.lfnNum 1 off := by
      refine longTrace_congr fun j hj => longEntry_eq_iff.mpr fun i hi => hall _ ?_
      rw [Nat.add_sub_cancel_left]
      omega
    rw [createTrace] at hok
    simp only [createStart_congr h, hlong] at hok
    rw [createTrace, CString.Same.lfnNum h]
    exact ⟨s₁, hok⟩

def plainA : CString := ⟨fun i => if i = 0 then 0x61 else 0, 1, rfl, by decide⟩

def staleA : CString := ⟨fun i =>
    if i = 0 then 0x61 else if i = 2 then 0x62 else 0, 1, rfl, by decide⟩

theorem same_plainA_staleA : plainA.Same staleA := by
  refine ⟨rfl, fun i hi => ?_⟩
  obtain rfl : i = 0 := Nat.lt_one_iff.mp hi
  rfl

/-- Byte `i` of the long entry a call in the root of `smallVolume` writes for a short name. -/
def longByte (name : CString) (i : ℕ) : Option UInt8 :=
  match createTrace .root name 0 smallVolume with
  | .ok (t, _) => (t[1]?).map fun e => e.2 i
  | .error _ => none

theorem createTrace_plainA : ∃ t s₁, createTrace .root plainA 0 smallVolume = .ok (t, s₁) := by
  have hbyte : longByte plainA 5 = some 0 := by decide +kernel
  cases hrun : createTrace .root plainA 0 smallVolume with
  | error e =>
    rw [longByte, hrun] at hbyte
    cases hbyte
  | ok r => exact ⟨r.1, r.2, rfl⟩

theorem createTrace_same_iff_plainA :
    ∃ t s₁, createTrace .root plainA 0 smallVolume = .ok (t, s₁) ∧
      ((∃ s₂, createTrace .root staleA 0 smallVolume = .ok (t, s₂)) ↔
        ∀ i, 1 < i → i < 13 → plainA.bytes i = staleA.bytes i) := by
  obtain ⟨t, s₁, hok⟩ := createTrace_plainA
  exact ⟨t, s₁, hok, createTrace_same_iff same_plainA_staleA hok⟩

/-- What is behind the terminator goes into the long entry. -/
theorem createTrace_stale : ¬∀ (s : Fat32FileSystem) (dir : InodeRef) (name name' : CString)
    (mode : ℕ) (t : List (ℕ × ByteMem)) (s₁ : Fat32FileSystem), name.Same name' →
    createTrace dir name mode s = .ok (t, s₁) → ∃ s₂, createTrace dir name' mode s = .ok (t, s₂) := by
  intro h
  obtain ⟨t, s₁, hok⟩ := createTrace_plainA
  obtain ⟨s₂, hok'⟩ := h smallVolume .root plainA staleA 0 t s₁ same_plainA_staleA hok
  have hsame : longByte plainA 5 = longByte staleA 5 := by rw [longByte, longByte, hok, hok']
  exact absurd hsame (by decide +kernel)

end SameName

end Fat32FileSystem

end StartOS
