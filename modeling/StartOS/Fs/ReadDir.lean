import StartOS.Fs.ShortName

/-! # Listing a directory

`ReadDir` scans a directory as `Lookup` does and makes a record of each name, one
behind the other in the buffer of its caller. The root has no entries for `.` and
`..` on the disk; its offsets 0 and 1 stand for them.
-/

namespace StartOS

/-- `ReadDirHeader`. `out` is what `either_copyout` was given, addresses with bytes, the latest
first. -/
structure ReadDirHeader where
  direntData : ℕ
  free : ℤ
  used : ℤ
  lastDirent : ℕ
  out : List (ℕ × List UInt8)

def linuxDirent (tmp : ByteMem) (ino off reclen type : ℕ) : ByteMem :=
  (((tmp.writeLE 0 8 ino).writeLE 8 8 off).writeLE 16 2 reclen).writeLE 18 1 type

/-- `filldir`: a record of `name`, if there is room for it. Where `d_off` is cleared there may be
no last record, whose address is then 0. The length of the name is an `int`, and `either_copyout`
takes it for one of 64 bits. -/
def filldir (tmp : ByteMem) (h : ReadDirHeader) (name : ByteMem) (nameLen : ℤ) (ino type : ℕ) :
    ℤ × ReadDirHeader :=
  let buf : ℕ := ((h.direntData + h.used) % 2 ^ 64).toNat
  let reclen : ℕ := ((24 + nameLen + 7) / 8 * 8 % 2 ^ 32).toNat
  if reclen > h.free % 2 ^ 32 then
    (-1, { h with out := ((h.lastDirent + 8) % 2 ^ 64, List.replicate 8 0) :: h.out })
  else
    let de := linuxDirent tmp ino ((buf + reclen) % 2 ^ 64) reclen type
    (0, { h with
      free := toInt32 (h.free - reclen)
      used := toInt32 (h.used + reclen)
      lastDirent := buf
      out := ((buf + 19) % 2 ^ 64, (List.range (nameLen % 2 ^ 64).toNat).map name) ::
        (buf, (List.range 24).map de) :: h.out })

/-- The records of `.` and `..` that `ReadDir` makes up for a root directory, `n` of them up to
offset 2; the offset it gets to and whether there was room for all. -/
def fillDots (tmp : ByteMem) : ℕ → ℕ → ReadDirHeader → Bool × ℕ × ReadDirHeader
  | 0, fpOffset, h => (true, fpOffset, h)
  | n + 1, fpOffset, h =>
    match filldir tmp h (fun i => if i < 2 then 0x2e else 0) (2 - n) 1 4 with
    | (ret, h) =>
      if ret < 0 then (false, fpOffset, h) else fillDots tmp n ((fpOffset + 1) % 2 ^ 64) h

namespace Fat32FileSystem

def direntType (entry : ByteMem) : ℕ := if entry 11 &&& 0x10 ≠ 0 then 4 else 8

section Scan

variable {m : Type → Type} [Monad m] [MonadExceptOf Halt m] (rd : ℕ → m (Option ByteMem))

/-- The rest of a group in `ReadDir`, `n` long entries and a short one: the offset behind it, the
short entry, `name` and `name_len`. -/
def dirGroup : ℕ → ℕ → ByteMem → ℕ → m (Option (ℕ × ByteMem × ByteMem × ℕ))
  | 0, off, name, nameLen => do
    match ← rd off with
    | none => return none
    | some entry => return some (off + 32, entry, name, nameLen)
  | n + 1, off, name, nameLen => do
    match ← rd off with
    | none => return none
    | some entry =>
      match copylfn entry name with
      | none => throw .fault
      | some name => dirGroup n (off + 32) name (nameLen + 13)

/-- The loop of `ReadDir`: `begin_off` at its end, and the header. -/
def dirLoop (tmp : ByteMem) : ℕ → ℕ → ℕ → ByteMem → ReadDirHeader → m (ℕ × ReadDirHeader)
  | 0, _, _, _, _ => throw .hang
  | fuel + 1, off, beginOff, name, h => do
    match ← rd off with
    | none => return (beginOff, h)
    | some entry =>
      if entry 0 = 0 then return (off, h)
      else if entry 11 ≠ 0x0f then
        let name := copysfn entry name
        match filldir tmp h name (copysfnLength entry) (getStartCluster entry)
          (direntType entry) with
        | (ret, h) =>
          if ret ≠ 0 then return (off, h) else dirLoop tmp fuel (off + 32) off name h
      else if entry 0 &&& 0xc0 = 0x40 then
        let nlfn := (entry 0 &&& 0xbf).toNat
        match copylfn entry (name.fill 0 64 0) with
        | none => throw .fault
        | some name =>
          match ← dirGroup rd (nlfn - 1) (off + 32) name 13 with
          | none => return (off, h)
          | some (next, entry, name, nameLen) =>
            match filldir tmp h name nameLen (getStartCluster entry) (direntType entry) with
            | (ret, h) => if ret < 0 then return (off, h) else dirLoop tmp fuel next off name h
      else dirLoop tmp fuel (off + 32) off name h

end Scan

/-- `ReadInode` of one entry at an `int` offset: past its range the offset is negative, which is
behind the end of every directory. -/
def readDirEntry (dir : InodeRef) (off : ℕ) : FsM (Option ByteMem) :=
  if off < 2 ^ 31 then readEntry dir off else return none

/-- `inode::inum`. Every inode that is numbered as the root is listed as the root. -/
def inum (dir : InodeRef) (ip : Inode) : ℕ := if dir = .root then 1 else ip.iStart

/-- The `int off` that the listing of the root begins with. -/
def rootOffset (fpOffset : ℕ) : ℤ := toInt32 (fpOffset - 2)

/-- What `ReadDir` does before its loop: whether there was room for the records that are made up,
the offset of the file and the header. -/
def dirStart (tmp : ByteMem) (inum fpOffset buf : ℕ) (maxLen : ℤ) : Bool × ℕ × ReadDirHeader :=
  let h : ReadDirHeader := ⟨buf, maxLen, 0, 0, []⟩
  if inum = 1 then fillDots tmp (-rootOffset fpOffset).toNat fpOffset h else (true, fpOffset, h)

/-- Where the loop of `ReadDir` begins. Only the root goes on where the file is. -/
def dirOffset (inum fpOffset : ℕ) : ℕ := if inum = 1 then (rootOffset fpOffset).toNat else 0

/-- `ReadDir` from the offset of a file on: the bytes used, what is written and the offset it
leaves. -/
def readDir (dir : InodeRef) (fpOffset buf : ℕ) (maxLen : ℤ) :
    FsM (ℤ × List (ℕ × List UInt8) × ℕ) := do
  let tmp := (← get).junk
  let inum := inum dir (← inode dir)
  match dirStart tmp inum fpOffset buf maxLen with
  | (false, fpOffset, h) => return (h.used, h.out, fpOffset)
  | (true, fpOffset, h) =>
    let off := dirOffset inum fpOffset
    let (beginOff, h) ← dirLoop (readDirEntry dir) tmp (← entryFuel dir) off off tmp h
    return (h.used, h.out, beginOff + 2)

end Fat32FileSystem

/-- `DevInodeInfo`, whose name is a string in an array of 10 bytes. -/
structure DevInodeInfo where
  name : List UInt8
  inum : ℕ
  name_lt : name.length < 10

namespace DeviceFileSystem

/-- The records of the devices in `iter`, with the offset counted on from `off`; the offset of the
file is stored when all are through. -/
def devLoop (tmp : ByteMem) (fpOffset : ℕ) :
    List DevInodeInfo → ℤ → ReadDirHeader → ℤ × List (ℕ × List UInt8) × ℕ
  | [], off, h => (h.used, h.out, (off % 2 ^ 64).toNat)
  | info :: iter, off, h =>
    match filldir tmp h (fun i => info.name.getD i 0) info.name.length info.inum 8 with
    | (ret, h) => if ret < 0 then (h.used, h.out, fpOffset) else devLoop tmp fpOffset iter (off + 1) h

/-- `ReadDir` of the devices, of which the root has `children`. As long as the offset of the file is
below 2, `off` is the same number. -/
def readDir (tmp : ByteMem) (children : List DevInodeInfo) (inum fpOffset buf : ℕ) (maxLen : ℤ) :
    ℤ × List (ℕ × List UInt8) × ℕ :=
  match fillDots tmp (if inum = 1 then 2 - fpOffset else 0) fpOffset ⟨buf, maxLen, 0, 0, []⟩ with
  | (false, fpOffset, h) => (h.used, h.out, fpOffset)
  | (true, fpOffset, h) =>
    let off := toInt32 fpOffset
    devLoop tmp fpOffset (children.drop (off - 2).toNat) off h

end DeviceFileSystem

end StartOS
