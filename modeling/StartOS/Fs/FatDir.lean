import StartOS.Fs.Fat32

/-! # FAT32 directories

A directory is a file of 32-byte entries. A name takes a run of long entries,
written back to front, and one short entry behind them; the scan for a name is
the same in `Lookup` and `Unlink` up to how names are compared.
-/

namespace StartOS

/-- A C string with its first byte at 0. The bytes behind the terminator are kept: a long
entry copies some of them. -/
structure CString where
  bytes : ByteMem
  strlen : ℕ
  nul : bytes strlen = 0
  ne_nul : ∀ i < strlen, bytes i ≠ 0

namespace CString

def empty : CString := ⟨fun _ => 0, 0, rfl, fun _ h => absurd h (Nat.not_lt_zero _)⟩

def lastDot (bytes : ByteMem) : ℕ → Option ℕ
  | 0 => none
  | n + 1 => if bytes n = 0x2e then some n else lastDot bytes n

/-- `strrchr(name, '.')`. -/
def strrchr (name : CString) : Option ℕ := lastDot name.bytes name.strlen

end CString

def strncmp (p q : ByteMem) : ℕ → ℤ
  | 0 => 0
  | n + 1 =>
    if p 0 ≠ 0 ∧ p 0 = q 0 then strncmp (fun i => p (i + 1)) (fun i => q (i + 1)) n
    else (p 0).toNat - (q 0).toNat

def toLowCase (c : UInt8) : UInt8 := if 0x41 ≤ c ∧ c ≤ 0x5a then c + 32 else c

def strncasecmp (p q : ByteMem) : ℕ → ℤ
  | 0 => 0
  | n + 1 =>
    let result : ℤ := (toLowCase (p 0)).toNat - (toLowCase (q 0)).toNat
    if result ≠ 0 ∨ p 0 = 0 then result
    else strncasecmp (fun i => p (i + 1)) (fun i => q (i + 1)) n

namespace Fat32FileSystem

def toUpCase (c : UInt8) : UInt8 := if 0x61 ≤ c ∧ c ≤ 0x7a then c - 32 else c

/-- The name `FillShortFile` stores: at most three characters behind the last dot, and of those
before it all eight or six and `~1`. -/
def shortName (entry : ByteMem) (name : CString) : ByteMem × ℕ :=
  let entry := entry.fill 0 11 0x20
  let (entry, len) := match name.strrchr with
    | some dot =>
      (entry.blit 8 (min (name.strlen - (dot + 1)) 3) fun i => name.bytes (dot + 1 + i), dot)
    | none => (entry, name.strlen)
  let entry :=
    if len > 8 then ((entry.blit 0 6 name.bytes).fill 6 1 0x7e).fill 7 1 0x31
    else entry.blit 0 len name.bytes
  (fun i => if i < len then toUpCase (entry i) else entry i, len)

/-- `FillShortFile` into an entry, which may be one of the stack. A name longer than an entry
is turned into capitals past its end. -/
def fillShortFile (entry : Stamp → ByteMem) (name : CString) (cluster mode : ℕ) :
    FsM ByteMem := do
  let t ← stamp
  let (entry, len) := shortName (entry t) name
  if len > 32 then throw .fault
  return fillMeta entry cluster mode t

/-- The bytes of a list, followed by those of `old`. -/
def overlay (old : ByteMem) (l : List UInt8) : ByteMem := fun i => l.getD i (old i)

/-- `ReadInode` of one entry, when all of it is there. -/
def readEntry (dir : InodeRef) (off : ℕ) : FsM (Option ByteMem) := do
  let (n, out) ← readInode dir (fun _ => true) off 32
  return if n = 32 then some (overlay (fun _ => 0) out) else none

def writeBytes (r : InodeRef) (data : ByteMem) (off n : ℕ) : FsM ℤ :=
  writeInode r (fun i => some (data i)) off n

/-- A bound on the turns of a loop over the entries of a directory: `off` grows by 32 in each
turn and no entry is read behind the size. -/
def entryFuel (dir : InodeRef) : FsM ℕ := do return (← inode dir).sz / 32 + 2

/-- The loop of `FindFreeEntry`. -/
def findFreeLoop (dir : InodeRef) (n : ℕ) : ℕ → ℕ → ℕ → FsM ℕ
  | 0, _, _ => throw .hang
  | fuel + 1, off, nfree => do
    match ← readEntry dir off with
    | none => throw (.panic "fat32:can't find free entry")
    | some entry =>
      let nfree := if entry 0 = 0xe5 ∨ entry 0 = 0 then nfree + 1 else 0
      if nfree = n then return off + 32 - nfree * 32
      findFreeLoop dir n fuel (off + 32) nfree

def findFreeEntry (dir : InodeRef) (n : ℕ) : FsM ℕ := do
  findFreeLoop dir n (← entryFuel dir) 0 0

def fatChecksum (name : ByteMem) : UInt8 :=
  (List.range 10).foldl (fun s i => (s <<< 7) + (s >>> 1) + name (i + 1)) (name 0)

/-- `CopyCharToWchar` of `n` characters to byte `a` of an entry. -/
def copyCharToWchar (entry : ByteMem) (a : ℕ) (src : ByteMem) (n : ℕ) : ByteMem :=
  entry.blit a (2 * n) fun i => if i % 2 = 0 then src (i / 2) else 0

/-- The long entry with sequence number `seq` of `lfnNum`. -/
def longEntry (name : CString) (checksum : UInt8) (lfnNum seq : ℕ) : ByteMem :=
  let name : ByteMem := fun i => name.bytes (13 * (seq - 1) + i)
  let entry : ByteMem := fun _ => 0xff
  let entry := entry.writeLE 0 1 (if seq = lfnNum then seq ||| 0x40 else seq)
  let entry := copyCharToWchar entry 1 name 5
  let entry := copyCharToWchar entry 14 (fun i => name (5 + i)) 6
  let entry := copyCharToWchar entry 28 (fun i => name (11 + i)) 2
  let entry := entry.fill 13 1 checksum
  entry.fill 11 1 0x0f

/-- The loop of `Create` over the sequence numbers from `seq` on. -/
def createLoop (dir : InodeRef) (name : CString) (checksum : UInt8) (lfnNum : ℕ) :
    ℕ → ℕ → ℕ → FsM Unit
  | 0, _, _ => return ()
  | n + 1, seq, off => do
    let _ ← writeBytes dir (longEntry name checksum lfnNum seq) off 32
    createLoop dir name checksum lfnNum n (seq + 1) ((off + 2 ^ 32 - 32) % 2 ^ 32)

/-- `Create`. The sequence number is a byte, so 255 long entries or more are written for ever. -/
def create (dir : InodeRef) (name : CString) (mode : ℕ) : FsM ℤ := do
  let lfnNum := (name.strlen + 12) / 13
  let off := ((← findFreeEntry dir (lfnNum + 1)) + lfnNum * 32) % 2 ^ 32
  let cluster ← allocCluster
  let entry ← fillShortFile (fun _ _ => 0) name cluster mode
  let _ ← writeBytes dir entry off 32
  let (_, out) ← readInode dir (fun _ => true) off 32
  let checksum := fatChecksum (overlay (fun _ => 0) out)
  if lfnNum ≥ 255 then throw .hang
  createLoop dir name checksum lfnNum lfnNum 1 ((off + 2 ^ 32 - 32) % 2 ^ 32)
  return 0

/-- The length of the part of the `n` bytes from `a` on that comes before the first blank. -/
def blankAt (sfn : ByteMem) (a : ℕ) : ℕ → ℕ
  | 0 => 0
  | n + 1 => if sfn a = 0x20 then 0 else blankAt sfn (a + 1) n + 1

/-- `copysfn`. Without an extension the name gets no terminator. -/
def copysfn (sfn dst : ByteMem) : ByteMem :=
  let n := blankAt sfn 0 8
  let dst := dst.blit 0 n sfn
  let ext := blankAt sfn 8 3
  if ext = 0 then dst
  else
    let dst := dst.fill n 1 0x2e
    let dst := dst.blit (n + 1) ext fun i => sfn (8 + i)
    dst.fill (n + 1 + ext) 1 0

/-- `copylfn` into `tmp_name[64]`, `none` when it writes outside of it. -/
def copylfn (entry dst : ByteMem) : Option ByteMem :=
  let sno := (entry 0 &&& 0xbf).toNat
  let off := 13 * (sno - 1)
  if sno = 0 ∨ 64 < off + 13 then none
  else
    let dst := dst.blit off 5 fun i => entry (1 + 2 * i)
    let dst := dst.blit (off + 5) 6 fun i => entry (14 + 2 * i)
    some (dst.blit (off + 11) 2 fun i => entry (28 + 2 * i))

/-- What a turn of a directory scan ends with: the offset behind the last entry read, that
entry, `tmp_name` and the number of long entries of the last group. -/
structure Scanned where
  off : ℕ
  entry : ByteMem
  tmp : ByteMem
  nlfn : ℕ

section Scan

variable {m : Type → Type} [Monad m] [MonadExceptOf Halt m] (rd : ℕ → m (Option ByteMem))

def readGroup (nlfn : ℕ) : ℕ → ℕ → ByteMem → m (Option Scanned)
  | 0, off, tmp => do
    match ← rd off with
    | none => throw (.panic "except sfn")
    | some entry => return some ⟨off + 32, entry, tmp, nlfn⟩
  | n + 1, off, tmp => do
    match ← rd off with
    | none => return none
    | some entry =>
      match copylfn entry tmp with
      | none => throw .fault
      | some tmp => readGroup nlfn n (off + 32) tmp

/-- One turn of the scan: an entry, or a group of long entries with its short entry. A long
entry that does not begin a group is skipped over with the name as it is. -/
def readName (short : ByteMem → ByteMem → ByteMem) (off : ℕ) (tmp : ByteMem) (nlfn : ℕ) :
    m (Option Scanned) := do
  match ← rd off with
  | none => return none
  | some entry =>
    if entry 0 = 0 then return none
    else if entry 11 ≠ 0x0f then return some ⟨off + 32, entry, short entry tmp, nlfn⟩
    else if entry 0 &&& 0xc0 = 0x40 then
      match copylfn entry tmp with
      | none => throw .fault
      | some tmp =>
        let nlfn := (entry 0 &&& 0xbf).toNat
        readGroup rd nlfn (nlfn - 1) (off + 32) tmp
    else return some ⟨off + 32, entry, tmp, nlfn⟩

/-- The scan of a directory for a name that is the `same`. -/
def scanLoop (short : ByteMem → ByteMem → ByteMem) (same : ByteMem → Bool) :
    ℕ → ℕ → ByteMem → ℕ → m (Option Scanned)
  | 0, _, _, _ => throw .hang
  | fuel + 1, off, tmp, nlfn => do
    match ← readName rd short off tmp nlfn with
    | none => return none
    | some g => if same g.tmp then return some g else scanLoop short same fuel g.off g.tmp g.nlfn

def lookupScan (name : CString) (fuel : ℕ) (tmp : ByteMem) : m (Option Scanned) :=
  scanLoop rd copysfn (fun tmp => strncasecmp name.bytes tmp name.strlen = 0) fuel 0 tmp 0

/-- The scan of `Unlink`, which leaves `tmp_name` alone at a short entry. -/
def unlinkScan (name : CString) (fuel : ℕ) (tmp : ByteMem) : m (Option Scanned) :=
  scanLoop rd (fun _ tmp => tmp) (fun tmp => strncmp name.bytes tmp name.strlen = 0) fuel 0 tmp 0

end Scan

def getStartCluster (entry : ByteMem) : ℕ := entry.readLE 20 2 * 2 ^ 16 + entry.readLE 26 2

def entryPos (dir : InodeRef) (g : Scanned) : FsM ℕ := do
  let bpc := (← get).info.bytesPerCluster
  let cluster ← bmap dir ((g.off - 32) / bpc % 2 ^ 32)
  let s ← get
  return s.firstSectorOfCluster cluster * sectorSize % 2 ^ 32 + (g.off - 32) % bpc

/-- `inode::dup`, or a reference taken by hand. -/
def dup (r : InodeRef) : FsM InodeRef := do
  updateInodeWith r fun ip => { ip with ref := ip.ref + 1 }
  return r

def deleteInode (r : InodeRef) : FsM Unit := do
  let ip ← inode r
  modify fun s => { s with inodes := Function.update s.inodes ip.iPos none }

/-- `inode::free`. -/
def freeInode (r : InodeRef) : FsM Unit := do
  let ip ← inode r
  if ip.ref < 1 then throw (.panic "inode free")
  updateInodeWith r fun ip => { ip with ref := ip.ref - 1 }
  if ip.ref - 1 = 0 then deleteInode r

def getInode (pos : ℕ) : FsM (Option InodeRef) := do
  match (← get).inodes pos with
  | none => return none
  | some _ => return some (← dup (.pos pos))

/-- The inode `BuildInode` makes of a short entry. -/
def inodeOf (entry : ByteMem) (pos : ℕ) (parent : InodeRef) : Inode where
  iStart := getStartCluster entry
  iLogi := 0
  iClus := getStartCluster entry
  iPos := pos
  sz := if entry 11 &&& 0x10 ≠ 0 then minusOne else entry.readLE 28 4
  mode := if entry 11 &&& 0x10 ≠ 0 then 0o040000 else 0o100000
  ref := 1
  parent := parent
  testName := fun i => if i < 11 then entry i else 0

def buildInode (entry : ByteMem) (pos : ℕ) (parent : InodeRef) : FsM InodeRef := do
  match ← getInode pos with
  | some r => return r
  | none =>
    let _ ← dup parent
    modify fun s => s.setInode (.pos pos) (inodeOf entry pos parent)
    return .pos pos

def lookup (dir : InodeRef) (name : CString) : FsM (Option InodeRef) := do
  if strncmp (fun i => if i = 0 then 0x2e else 0) name.bytes name.strlen = 0 then
    return some (← dup dir)
  if strncmp (fun i => if i < 2 then 0x2e else 0) name.bytes name.strlen = 0 then
    return some (← dup (← inode dir).parent)
  match ← lookupScan (readEntry dir) name (← entryFuel dir) (← get).junk with
  | none => return none
  | some g => return some (← buildInode g.entry (← entryPos dir g) dir)

def dotEntries (dot dotdot : ByteMem) : ByteMem :=
  fun i =>
    if i < 32 then dot.fill 0 1 0x2e i else (dotdot.fill 0 2 0x2e) (i - 32)

def mkdir (dir : InodeRef) (name : CString) (mode : ℕ) : FsM ℤ := do
  let _ ← create dir name (mode ||| 0o040000)
  match ← lookup dir name with
  | none => throw (.panic "mkdir")
  | some r =>
    let dot ← fillShortFile stackEntry .empty (← inode r).iStart mode
    let dip ← inode dir
    let dotdot ← fillShortFile stackEntry .empty dip.iStart dip.mode
    writeBytes r (dotEntries dot dotdot) 0 64

/-- `MarkEntryDeleted` of `n` entries, backwards from `off`. -/
def markEntryDeleted (dir : InodeRef) : ℕ → ℕ → FsM Unit
  | 0, _ => return ()
  | n + 1, off => do
    match ← readEntry dir off with
    | none => return ()
    | some entry =>
      if (← writeBytes dir (entry.fill 0 1 0xe5) off 32) ≠ 32 then return ()
      markEntryDeleted dir n ((off + 2 ^ 32 - 32) % 2 ^ 32)

def unlink (dir : InodeRef) (name : CString) : FsM ℤ := do
  match ← unlinkScan (readEntry dir) name (← entryFuel dir) (← get).junk with
  | none => return 0
  | some g =>
    match ← getInode (← entryPos dir g) with
    | some r =>
      freeInode r
      return -1
    | none =>
      markEntryDeleted dir (g.nlfn + 1) (g.off - 32)
      freeClusterChain (getStartCluster g.entry)
      return 0

end Fat32FileSystem

end StartOS
