import StartOS.Fs.Filling

/-! # Listing a directory call by call

A file keeps in its offset how far the calls of `ReadDir` have come. In the root of a
volume the offset a call leaves stands for what the call has had no room for; below
the root each call begins with the first entry.
-/

namespace StartOS

open Hoare

/-- What a call of `ReadDir` gives: the bytes used, the records and the offset it leaves. -/
structure Returned where
  used : ℤ
  recs : List Record
  offset : ℕ

def Returned.of (r : ℤ × List (ℕ × List UInt8) × ℕ) : Returned := ⟨r.1, records r.2.1, r.2.2⟩

/-- Calls with the buffers `bufs`, each an address and a length, on a file that has just been opened.
After a call that does not return there is none. -/
structure Calls (call : ℕ → ℕ × ℤ → Option Returned → Prop) (bufs : ℕ → ℕ × ℤ) (off : ℕ → ℕ)
    (res : ℕ → Option Returned) : Prop where
  start : off 0 = 0
  made : ∀ i, (∀ j < i, res j ≠ none) → call (off i) (bufs i) (res i)
  next : ∀ i r, res i = some r → off (i + 1) = r.offset

structure BufferFor (ps : List Piece) (len : ℤ) : Prop where
  nonneg : 0 ≤ len
  lt : len < 2 ^ 31
  size_le : ∀ p ∈ ps, p.size ≤ len

variable {call : ℕ → ℕ × ℤ → Option Returned → Prop} {bufs : ℕ → ℕ × ℤ} {off : ℕ → ℕ}
  {res : ℕ → Option Returned} {recs : List Record} {ps qs rest : List Piece} {len used : ℤ} {i n : ℕ}

section Runs

end Runs

namespace Fat32FileSystem

/-! ## Directories of a volume -/

/-- A directory of a volume that does not change: in each of the states its entries are read as
they are, up to the end mark. -/
structure Listed where
  dir : InodeRef
  isRoot : Bool
  items : List Item
  mark : ByteMem
  mark_eq : mark 0 = 0
  states : Fat32FileSystem → Prop
  node : ∀ s, states s → ∃ ip, s.inode? dir = some ip ∧ (inum dir ip = 1 ↔ isRoot = true)
  gives : Gives states (readDirEntry dir) 0 (layout items ++ [mark])

def outcome {σ : Type} : Except Halt ((ℤ × List (ℕ × List UInt8) × ℕ) × σ) → Option Returned
  | .ok (r, _) => some (.of r)
  | .error _ => none

namespace Listed

variable {d : Listed} {s : Fat32FileSystem} {ip : Inode} {tmp name : ByteMem} {h : ReadDirHeader}
  {pre its : List Item} {beginOff buf o o' k : ℕ} {b : ℕ × ℤ} {r : Option Returned}

theorem length_items_le (items : List Item) : items.length ≤ (layout items).length := by
  induction items with
  | nil => exact le_rfl
  | cons it items ih =>
    have hpos : 0 < it.entries.length := by
      cases it with
      | deleted e he => exact Nat.one_pos
      | file f =>
        rw [Item.entries, List.length_append]
        exact Nat.succ_pos _
    rw [layout, List.flatMap_cons, List.length_append, List.length_cons]
    rw [layout] at ih
    omega

theorem layout_append (pre its : List Item) : layout (pre ++ its) = layout pre ++ layout its :=
  List.flatMap_append

end Listed

end Fat32FileSystem

end StartOS
