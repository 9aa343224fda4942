import StartOS.Fs.DeviceListing
import StartOS.Fs.DirUnlink

/-! # Listing a directory to its end

The calls of `ReadDir` on one file list the root of a volume as they should if it holds
no deleted short entry and no name of more than four long entries, the devices if the
first call with room for one of them has room for all, and a directory below the root
only if there is nothing to list.
-/

namespace StartOS

open Hoare

namespace Fat32FileSystem

variable {items : List Item} {it : Item}

end Fat32FileSystem

open Fat32FileSystem DeviceFileSystem

/-- A directory that can be listed. The devices are those of `rw_devs` and the terminal. -/
inductive Directory
  | fat (d : Listed)
  | dev (children : List DevInodeInfo) (h : children.length ≤ 11)

namespace Directory

/-- A call of `ReadDir`. -/
def Call : Directory → ℕ → ℕ × ℤ → Option Returned → Prop
  | fat d => fun o b r => ∃ s, d.states s ∧ r = outcome (Fat32FileSystem.readDir d.dir o b.1 b.2 s)
  | dev children _ => DeviceFileSystem.Call children

/-- What `ReadDir` makes records of. -/
def made : Directory → List Piece
  | fat d => if d.isRoot then dotPieces 2 ++ pieces d.items else pieces d.items
  | dev children _ => dotPieces 2 ++ children.map devPiece

/-- What a listing is to give: `.` and `..`, which below the root are entries of the directory, and
what is in use. -/
def entries : Directory → List Record
  | fat d =>
    if d.isRoot then [⟨[0x2e], 1, 4⟩, ⟨[0x2e, 0x2e], 1, 4⟩] ++ liveRecords d.items
    else liveRecords d.items
  | dev children _ =>
    [⟨[0x2e], 1, 4⟩, ⟨[0x2e, 0x2e], 1, 4⟩] ++ children.map fun info => (devPiece info).record

end Directory

variable {bufs : ℕ → ℕ × ℤ} {off : ℕ → ℕ} {res : ℕ → Option Returned}

end StartOS
