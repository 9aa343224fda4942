import StartOS.Fs.BufferLayer

/-! # The FAT32 file system

The state of a mounted volume and the operations below the directories: the
allocation table, which lives in `fat_cache_` only, the map from a logical to a
physical cluster, and reading and writing through the buffer cache.
-/

namespace StartOS

/-- `Fat32Info`, the numbers computed from the boot sector. -/
structure Fat32Info where
  firstDataSector : ℕ
  clusterCount : ℕ
  bytesPerCluster : ℕ
  bytesPerSector : ℕ
  sectorsPerCluster : ℕ
  reserveSectors : ℕ
  rootDirectoryClusterStart : ℕ
  deriving DecidableEq, Repr

/-- An in-memory inode is the root or is found in `inode_cache_map_` by the disk position of
its directory entry. -/
inductive InodeRef
  | root
  | pos (p : ℕ)
  deriving DecidableEq, Repr

/-- `MsdosInodeInfo` with the parts of `struct inode` the file system uses. The `int` fields
hold their 32-bit patterns; `testName` is followed by the padding byte of the struct. -/
structure Inode where
  iStart : ℕ
  iLogi : ℕ
  iClus : ℕ
  iPos : ℕ
  sz : ℕ
  mode : ℕ
  ref : ℤ
  parent : InodeRef
  testName : ByteMem

/-- What one `FillShortFile` gets from outside: the date and time words and the two bytes of
the entry that it leaves as they are. -/
structure Stamp where
  date : ℕ
  time : ℕ
  reserved : UInt8
  seconds : UInt8

/-- A mounted volume. `stamps` is what the clock and the stack will give; `junk` is what an
uninitialised buffer holds. -/
structure Fat32FileSystem where
  info : Fat32Info
  dev : ℤ
  disk : ByteMem
  fatCache : ByteMem
  buffers : BufferLayer
  root : Inode
  inodes : ℕ → Option Inode
  stamps : ℕ → Stamp
  stampNo : ℕ
  junk : ByteMem

abbrev FsM := StateT Fat32FileSystem Kernel

namespace Fat32FileSystem

/-- `kEndOfCluster32`. -/
def endOfCluster : ℕ := 0x0fffffff

def sectorSize : ℕ := 512

/-- `(uint32_t)-1`. -/
def minusOne : ℕ := 0xffffffff

section

variable (s : Fat32FileSystem)

def firstSectorOfCluster (cluster : ℕ) : ℕ :=
  (s.info.firstDataSector + (cluster + 2 ^ 32 - 2) % 2 ^ 32 * s.info.sectorsPerCluster) % 2 ^ 32

def fatSectorOfCluster (cluster : ℕ) : ℕ :=
  (s.info.reserveSectors + cluster * 4 % 2 ^ 32 / s.info.bytesPerSector) % 2 ^ 32

def fatOffsetOfCluster (cluster : ℕ) : ℕ := cluster * 4 % 2 ^ 32 % s.info.bytesPerSector

/-- Where `fat_cache_` holds the entry of a cluster. -/
def fatIndex (cluster : ℕ) : ℕ :=
  (s.fatSectorOfCluster cluster - s.info.reserveSectors) * 512 + s.fatOffsetOfCluster cluster

def inode? : InodeRef → Option Inode
  | .root => some s.root
  | .pos p => s.inodes p

def setInode (r : InodeRef) (ip : Inode) : Fat32FileSystem :=
  match r with
  | .root => { s with root := ip }
  | .pos p => { s with inodes := Function.update s.inodes p (some ip) }

end

def inode (r : InodeRef) : FsM Inode := do
  match (← get).inode? r with
  | some ip => return ip
  | none => throw .fault

def updateInodeWith (r : InodeRef) (f : Inode → Inode) : FsM Unit := do
  let ip ← inode r
  modify fun s => s.setInode r (f ip)

def readSector (sector : ℕ) (data : ByteMem) : FsM ByteMem := do
  let s ← get
  return rwDevRead s.disk (toInt32 (toInt32 sector * s.info.bytesPerSector))
    s.info.bytesPerSector data

def storeSector (data disk : ByteMem) (sector : ℕ) : ByteMem :=
  rwDevWrite disk (toInt32 (toInt32 sector * sectorSize)) sectorSize data

def writeSector (sector : ℕ) (data : ByteMem) : FsM Unit :=
  modify fun s => { s with disk := storeSector data s.disk sector }

/-- `SetFatEntey`. Only `fat_cache_` is written. -/
def setFatEntry (cluster value : ℕ) : FsM ℤ := do
  let s ← get
  if cluster > s.info.clusterCount then return -1
  if s.fatSectorOfCluster cluster < 1024 then
    set { s with fatCache := s.fatCache.writeLE (s.fatIndex cluster) 4 value }
    return 0
  else throw (.panic "set fat entry")

def getFatEntry (cluster : ℕ) : FsM ℕ := do
  let s ← get
  if cluster > s.info.clusterCount then return minusOne
  if s.fatSectorOfCluster cluster < 1024 then
    return s.fatCache.readLE (s.fatIndex cluster) 4
  else throw (.panic "get fat entry")

def zeroCluster (cluster : ℕ) : FsM Unit := do
  let s ← get
  (List.range s.info.sectorsPerCluster).forM fun i =>
    writeSector (s.firstSectorOfCluster cluster + i) fun _ => 0

/-- The loop of `AllocCluster`. -/
def allocFrom : ℕ → ℕ → FsM ℕ
  | 0, _ => throw .hang
  | n + 1, cluster => do
    if (← getFatEntry cluster) = 0 then
      let _ ← setFatEntry cluster endOfCluster
      zeroCluster cluster
      return cluster
    allocFrom n (cluster + 1)

/-- `AllocCluster`. Past the last cluster every entry reads as -1 and the loop does not end. -/
def allocCluster : FsM ℕ := do allocFrom (← get).info.clusterCount 2

/-- The loop of `bmap`, `n` links further on from `cur`. -/
def bmapLoop : ℕ → ℕ → FsM ℕ
  | 0, cur => return cur
  | n + 1, cur => do
    if cur = endOfCluster then return cur
    let now ← getFatEntry cur
    if now = endOfCluster then
      let now ← allocCluster
      let _ ← setFatEntry cur now
      bmapLoop n now
    else bmapLoop n now

/-- Sign extension of a 32-bit pattern to `size_t`. -/
def signExtend (x : ℕ) : ℕ := if x < 2 ^ 31 then x else x + 2 ^ 64 - 2 ^ 32

/-- `bmap`: the cluster that holds logical cluster `logi`, made when it is missing. -/
def bmap (r : InodeRef) (logi : ℕ) : FsM ℕ := do
  let s ← get
  let ip ← inode r
  let start := if r = .root then s.info.rootDirectoryClusterStart else ip.iStart
  let (cur, i) := if logi ≥ ip.iLogi then (ip.iClus, signExtend ip.iLogi) else (start, 0)
  let cur ← bmapLoop (logi - i) cur
  if cur = endOfCluster then return minusOne
  updateInodeWith r fun ip => { ip with iLogi := logi, iClus := cur }
  return cur

/-- The loop of `FreeClusterChain`. -/
def freeFrom : ℕ → ℕ → FsM Unit
  | 0, _ => throw .hang
  | n + 1, cluster => do
    if cluster = endOfCluster then return ()
    let next ← getFatEntry cluster
    let _ ← setFatEntry cluster 0
    freeFrom n next

/-- `FreeClusterChain`. A loop that leaves the table or comes back to a cleared entry goes on
for ever, so the bound on its turns cuts off no call that returns. -/
def freeClusterChain (cluster : ℕ) : FsM Unit := do
  freeFrom (2 * (← get).info.clusterCount + 4) cluster

/-- `buffer_layer.read`. -/
def bufRead (cluster : ℕ) : FsM ℕ := do
  let s ← get
  let (i, l) ← (s.buffers.read s.disk s.dev cluster : Kernel _)
  set { s with buffers := l }
  return i

/-- `buffer_layer.write`. -/
def bufWrite (i : ℕ) : FsM Unit :=
  modify fun s => { s with disk := s.buffers.write s.disk i }

/-- `buffer_layer.freeBuffer`. -/
def bufFree (i : ℕ) : FsM Unit :=
  modify fun s => { s with buffers := s.buffers.freeBuffer i }

def prefixLen (ok : ℕ → Bool) : ℕ → ℕ
  | 0 => 0
  | n + 1 => if ok 0 then prefixLen (fun i => ok (i + 1)) n + 1 else 0

/-- The loop of `ReadInode`. `dst` tells which bytes of the caller's buffer can be stored to;
the bytes stored so far are `out`. -/
def readLoop (r : InodeRef) (dst : ℕ → Bool) (n : ℕ) :
    ℕ → ℕ → ℕ → List UInt8 → FsM (ℤ × List UInt8)
  | 0, _, _, _ => throw .hang
  | fuel + 1, total, offset, out => do
    if total < n then
      let bpc := (← get).info.bytesPerCluster
      let cluster ← bmap r (offset / bpc % 2 ^ 32)
      let i ← bufRead cluster
      let b := (← get).buffers.bufCache i
      let mod := offset % bpc
      let nread := min (n - total) (bpc - mod)
      let m := prefixLen (fun j => dst (total + j)) nread
      let out := out ++ (List.range m).map fun j => b.data (mod + j)
      if m < nread then return (-1, out)
      bufFree i
      readLoop r dst n fuel (total + nread) (offset + nread) out
    else return (toInt32 total, out)

/-- `ReadInode`: the result and the bytes stored at the caller's buffer. -/
def readInode (r : InodeRef) (dst : ℕ → Bool) (offset n : ℕ) : FsM (ℤ × List UInt8) := do
  let ip ← inode r
  if offset > ip.sz ∨ (offset + n) % 2 ^ 64 < offset then return (0, [])
  let n := if offset + n > ip.sz then ip.sz - offset else n
  readLoop r dst n (n + 1) 0 offset []

def mkattr (mode : ℕ) : UInt8 := if mode &&& 0o170000 = 0o040000 then 0x10 else 0

/-- The part of `FillShortFile` after the name: attribute, times, first cluster, size. -/
def fillMeta (entry : ByteMem) (cluster mode : ℕ) (t : Stamp) : ByteMem :=
  let entry := entry.writeLE 11 1 (mkattr mode).toNat
  let entry := entry.writeLE 16 2 t.date
  let entry := entry.writeLE 14 2 t.time
  let entry := entry.writeLE 18 2 t.date
  let entry := entry.writeLE 24 2 t.date
  let entry := entry.writeLE 22 2 t.time
  let entry := entry.writeLE 26 2 (cluster % 2 ^ 16)
  let entry := entry.writeLE 20 2 (cluster / 2 ^ 16)
  entry.writeLE 28 4 0

def stamp : FsM Stamp := do
  let s ← get
  set { s with stampNo := s.stampNo + 1 }
  return s.stamps s.stampNo

/-- An entry on the stack before anything is stored in it: of its bytes only those at 12 and
13 survive `FillShortFile`. -/
def stackEntry (t : Stamp) : ByteMem :=
  ByteMem.blit (ByteMem.blit (fun _ => 0) 12 1 fun _ => t.reserved) 13 1 fun _ => t.seconds

/-- The entry `UpdateInode` stores: the name and the byte after it overwrite the first twelve
bytes, the attribute among them. -/
def inodeEntry (ip : Inode) (t : Stamp) : ByteMem :=
  let entry := fillMeta (stackEntry t) ip.iStart ip.mode t
  let entry := entry.writeLE 28 4 ip.sz
  entry.blit 0 12 ip.testName

/-- `UpdateInode`. The sector is read from and written to the disk past the buffer cache. -/
def updateInode (r : InodeRef) : FsM Unit := do
  let t ← stamp
  let s ← get
  let ip ← inode r
  let sector := ip.iPos / s.info.bytesPerSector
  let off := ip.iPos % s.info.bytesPerSector
  let data ← readSector sector s.junk
  writeSector sector (data.blit off 32 (inodeEntry ip t))

/-- The loop of `WriteInode`: the result and the offset reached. `src` is the caller's buffer,
`none` where it cannot be read. -/
def writeLoop (r : InodeRef) (src : ℕ → Option UInt8) (n : ℕ) :
    ℕ → ℕ → ℕ → FsM (ℤ × ℕ)
  | 0, _, _ => throw .hang
  | fuel + 1, total, off => do
    if total < n then
      let bpc := (← get).info.bytesPerCluster
      let cluster ← bmap r (off / bpc % 2 ^ 32)
      let i ← bufRead cluster
      let b := (← get).buffers.bufCache i
      let mod := off % bpc
      let nwrite := min (n - total) (bpc - mod)
      let m := prefixLen (fun j => (src (total + j)).isSome) nwrite
      let data := b.data.blit mod m fun j => (src (total + j)).getD 0
      modify fun s => { s with buffers := s.buffers.setBuf i { b with data := data } }
      if m < nwrite then return (-1, off)
      bufWrite i
      bufFree i
      writeLoop r src n fuel (total + nwrite) (off + nwrite)
    else return (toInt32 total, off)

def writeInode (r : InodeRef) (src : ℕ → Option UInt8) (off n : ℕ) : FsM ℤ := do
  let ip ← inode r
  if off > ip.sz ∨ (off + n) % 2 ^ 64 < off then return -1
  let (total, off) ← writeLoop r src n (n + 1) 0 off
  let ip ← inode r
  if off > ip.sz then updateInodeWith r fun ip => { ip with sz := off % 2 ^ 32 }
  updateInode r
  return total

/-- What `Init` takes from the boot sector. -/
def infoOf (disk : ByteMem) : Fat32Info :=
  let bytesPerSector := disk.readLE 11 2
  let sectorsPerCluster := disk.readLE 13 1
  let reservedSectors := disk.readLE 14 2
  { firstDataSector := (reservedSectors + disk.readLE 16 1 * disk.readLE 36 4) % 2 ^ 32
    clusterCount := disk.readLE 32 4 / sectorsPerCluster
    bytesPerCluster := bytesPerSector * sectorsPerCluster % 2 ^ 16
    bytesPerSector := bytesPerSector
    sectorsPerCluster := sectorsPerCluster
    reserveSectors := reservedSectors
    rootDirectoryClusterStart := disk.readLE 44 4 }

/-- `fat_cache_` after the loop of the constructor, which reads the sectors from the first one of
the table to 1023. -/
def loadFat (disk : ByteMem) (info : Fat32Info) (cache : ByteMem) : ByteMem :=
  (List.range (1024 - info.reserveSectors)).foldl (fun cache k =>
    let data := rwDevRead disk
      (toInt32 (toInt32 ((info.reserveSectors + k : ℕ) : ℤ) * info.bytesPerSector))
      info.bytesPerSector fun x => cache (k * 512 + x)
    fun x => if k * 512 ≤ x then data (x - k * 512) else cache x) cache

/-- What the constructor finds in memory: the global `fat_cache_` and `buffer_layer`, the bytes
the root inode is made in, and what clock and stack will give. -/
structure Boot where
  dev : ℤ
  fatCache : ByteMem
  buffers : BufferLayer
  root : Inode
  stamps : ℕ → Stamp
  junk : ByteMem

def mount (b : Boot) (disk : ByteMem) : Fat32FileSystem :=
  let info := infoOf disk
  let s : Fat32FileSystem :=
    { info := info
      dev := b.dev
      disk := disk
      fatCache := loadFat disk info b.fatCache
      buffers := { b.buffers with
        firstDataSector := info.firstDataSector
        sectorsPerCluster := info.sectorsPerCluster }
      root := { b.root with
        iStart := info.rootDirectoryClusterStart
        sz := minusOne
        mode := b.root.mode ||| 0o040000
        ref := 1
        parent := .root
        testName := fun i => if i = 0 then 0x2f else if i = 1 then 0 else b.root.testName i }
      inodes := fun _ => none
      stamps := b.stamps
      stampNo := 0
      junk := b.junk }
  { s with root := { s.root with
      iPos := s.firstSectorOfCluster info.rootDirectoryClusterStart * info.bytesPerSector % 2 ^ 32 } }

end Fat32FileSystem

end StartOS
