import StartOS.Fs.DirentBounds
import StartOS.Fs.NameRoundTrip

/-! # The format of a directory

A directory is a list of entries up to an end mark: deleted ones, and short entries
with the long entries of their names before them. What a listing is to give is said
of this format, not of the scan.
-/

namespace StartOS

def untilNul (l : List UInt8) : List UInt8 := l.takeWhile (· ≠ 0)

structure Record where
  name : List UInt8
  ino : ℕ
  type : ℕ
  deriving DecidableEq

/-- What `filldir` is called with. -/
structure Piece where
  bytes : List UInt8
  ino : ℕ
  type : ℕ
  length_lt : bytes.length < 2 ^ 15

def Piece.record (p : Piece) : Record := ⟨untilNul p.bytes, p.ino % 2 ^ 64, p.type % 2 ^ 8⟩

def Piece.size (p : Piece) : ℤ := recLen p.bytes.length

namespace Fat32FileSystem

def chars (e : ByteMem) : List UInt8 := (List.range 13).map fun i => e (charPos i)

def shortChars (e : ByteMem) : List UInt8 :=
  joinName (unpadded ((List.range 8).map e)) (unpadded ((List.range 3).map fun i => e (8 + i)))

/-- A short entry that is in use, with the long entries of its name. The last part of the name
comes first. -/
structure FileEntry where
  longs : List ByteMem
  short : ByteMem
  long_attrib : ∀ e ∈ longs, e 11 = 0x0f
  sequence : longs.map (fun e => e 0) =
    (List.range longs.length).map fun j => sequenceByte longs.length (longs.length - j)
  length_le : longs.length ≤ 20
  short_attrib : short 11 ≠ 0x0f
  not_deleted : short 0 ≠ 0xe5
  not_mark : short 0 ≠ 0

inductive Item
  | deleted (e : ByteMem) (h : e 0 = 0xe5)
  | file (f : FileEntry)

theorem length_chars (e : ByteMem) : (chars e).length = 13 := by
  rw [chars, List.length_map, List.length_range]

theorem length_flatMap_chars (longs : List ByteMem) :
    (longs.flatMap chars).length = 13 * longs.length := by
  rw [List.length_flatMap, List.map_congr_left fun e _ => length_chars e, List.map_const',
    List.sum_replicate_nat, Nat.mul_comm]

theorem copiedName_eq_shortChars {sfn : ByteMem} (dst : ByteMem) :
    copiedName sfn dst = shortChars sfn := by
  refine copiedName_eq (by simp) (by simp) (fun i hi => ?_) fun i hi => ?_
  · rw [getD_map_range, if_pos hi]
  · rw [getD_map_range, if_pos hi]

theorem length_shortChars (e : ByteMem) : (shortChars e).length = copysfnLength e := by
  rw [← copiedName_eq_shortChars e, copiedName, List.length_map, List.length_range]

def FileEntry.bytes (f : FileEntry) : List UInt8 :=
  if f.longs = [] then shortChars f.short else f.longs.reverse.flatMap chars

theorem FileEntry.length_bytes (f : FileEntry) : f.bytes.length < 2 ^ 15 := by
  have hshort := copysfnLength_lt f.short
  have hlong := f.length_le
  rw [bytes]
  split
  · rwa [length_shortChars]
  · rw [length_flatMap_chars, List.length_reverse]
    omega

def FileEntry.piece (f : FileEntry) : Piece :=
  ⟨f.bytes, getStartCluster f.short, direntType f.short, f.length_bytes⟩

def shortPiece (e : ByteMem) : Piece :=
  ⟨shortChars e, getStartCluster e, direntType e, (length_shortChars e).trans_lt (copysfnLength_lt e)⟩

namespace Item

def entries : Item → List ByteMem
  | deleted e _ => [e]
  | file f => f.longs ++ [f.short]

def live? : Item → Option Record
  | deleted _ _ => none
  | file f => some f.piece.record

/-- What `ReadDir` makes a record of. It skips over deleted long entries only. -/
def piece? : Item → Option Piece
  | deleted e _ =>
    if e 11 = 0x0f then none else some (shortPiece e)
  | file f => some f.piece

/-- The long entries do not have a place in `name`. -/
def TooLong : Item → Prop
  | deleted _ _ => False
  | file f => 4 < f.longs.length

def DeletedLong : Item → Prop
  | deleted e _ => e 11 = 0x0f
  | file _ => False

end Item

def layout (items : List Item) : List ByteMem := items.flatMap Item.entries

def liveRecords (items : List Item) : List Record := items.filterMap Item.live?

def pieces (items : List Item) : List Piece := items.filterMap Item.piece?

section Names

variable {e dst : ByteMem} {n k : ℕ}

theorem copylfn_eq (dst : ByteMem) (h : InName e) :
    copylfn e dst = some (dst.blit (13 * (sequenceNo e - 1)) 13 fun i => e (charPos i)) := by
  obtain ⟨h₁, h₄⟩ := h
  rw [sequenceNo] at h₁ h₄
  have hfirst : ∀ i < 5, e (1 + 2 * i) = e (charPos i) := fun i hi => by rw [charPos, if_pos hi]
  have hsecond : ∀ i < 6, e (14 + 2 * i) = e (charPos (5 + i)) := fun i hi => by
    rw [charPos, if_neg (by omega), if_pos (by omega)]
    exact congrArg e (by omega)
  have hthird : ∀ i < 2, e (28 + 2 * i) = e (charPos (11 + i)) := fun i hi => by
    rw [charPos, if_neg (by omega), if_neg (by omega)]
    exact congrArg e (by omega)
  have h₁₁ := ByteMem.blit_append (m := dst) (a := 13 * (sequenceNo e - 1)) (n := 5) (k := 6)
    (f := fun i => e (charPos i)) hsecond
  have h₁₃ := ByteMem.blit_append (m := dst) (a := 13 * (sequenceNo e - 1)) (n := 11) (k := 2)
    (f := fun i => e (charPos i)) hthird
  rw [sequenceNo] at h₁₁ h₁₃ ⊢
  rw [copylfn]
  dsimp only
  rw [if_neg (by omega), ByteMem.blit_congr hfirst, h₁₁, h₁₃]

theorem sequenceByte_first (h₁ : 1 ≤ n) (h : n ≤ 20) :
    sequenceByte n n ≠ 0 ∧ sequenceByte n n &&& 0xc0 = 0x40 := by
  interval_cases n <;> decide

theorem sequenceByte_and (h₁ : 1 ≤ k) (hk : k ≤ n) (h : n ≤ 20) :
    (sequenceByte n k &&& 0xbf).toNat = k := by
  rw [sequenceByte]
  split
  · rename_i he
    subst he
    interval_cases k <;> rfl
  · have : k ≤ 20 := hk.trans h
    interval_cases k <;> rfl

theorem FileEntry.map_sequenceNo (f : FileEntry) : f.longs.map sequenceNo =
    (List.range f.longs.length).map fun j => f.longs.length - j := by
  have hseq := congrArg (List.map fun c : UInt8 => (c &&& 0xbf).toNat) f.sequence
  rw [List.map_map, List.map_map] at hseq
  refine hseq.trans (List.map_congr_left fun j hj => ?_)
  rw [List.mem_range] at hj
  exact sequenceByte_and (by omega) (by omega) f.length_le

end Names

end Fat32FileSystem

end StartOS
