import Mathlib.Logic.Function.Basic
import StartOS.Fs.Disk

/-! # The buffer cache

`BufferLayer` keeps 20 buffers of one cluster each. A buffer is found by its
cluster number alone; on a miss the unused buffer with the oldest tick is
taken. `timer::ticks` moves on between any two reads of it, so its values are
a stream that the layer consumes.
-/

namespace StartOS

def bufferNum : ℕ := 20

def bsize : ℕ := 4096

/-- `struct buf`; `locked` is its sleep lock. -/
structure Buf where
  valid : Bool
  dev : ℤ
  blockno : ℤ
  lastUseTick : ℕ
  locked : Bool
  refcnt : ℕ
  data : ByteMem

/-- The buffers, the geometry for `FirstSectorOfCluster` and the ticks still to come. -/
structure BufferLayer where
  bufCache : ℕ → Buf
  firstDataSector : ℕ
  sectorsPerCluster : ℕ
  ticks : ℕ → ℕ
  now : ℕ

/-- What the scan of `allocBuffer` ends with. -/
inductive Slot
  | hit (i : ℕ)
  | evict (i : ℕ)
  | full
  deriving DecidableEq, Repr

namespace BufferLayer

variable (s : BufferLayer)

def earlier (i : ℕ) : Option ℕ → Option ℕ
  | none => if (s.bufCache i).refcnt = 0 then some i else none
  | some e =>
    if (s.bufCache i).refcnt = 0 ∧ (s.bufCache i).lastUseTick < (s.bufCache e).lastUseTick then
      some i
    else some e

/-- The scan of `allocBuffer` over the last `n` buffers. -/
def scan (blockno : ℤ) : ℕ → Option ℕ → Slot
  | 0, none => .full
  | 0, some e => .evict e
  | n + 1, e =>
    let i := bufferNum - (n + 1)
    if (s.bufCache i).blockno = blockno then .hit i else scan blockno n (s.earlier i e)

def setBuf (i : ℕ) (b : Buf) : BufferLayer := { s with bufCache := Function.update s.bufCache i b }

def tick : ℕ × BufferLayer := (s.ticks s.now, { s with now := s.now + 1 })

def allocBuffer (dev blockno : ℤ) : Kernel (ℕ × BufferLayer) :=
  match s.scan blockno bufferNum none with
  | .hit i =>
    let b := s.bufCache i
    if b.locked then .error .hang
    else
      let (t, s) := s.tick
      .ok (i, s.setBuf i { b with refcnt := (b.refcnt + 1) % 2 ^ 32, lastUseTick := t,
                                  locked := true })
  | .full => .error (.panic "alloc buf")
  | .evict i =>
    let b := s.bufCache i
    if b.locked then .error .hang
    else
      let (t, s) := s.tick
      .ok (i, s.setBuf i { b with valid := false, refcnt := 1, blockno := blockno, dev := dev,
                                  lastUseTick := t, locked := true })

def freeBuffer (i : ℕ) : BufferLayer :=
  let b := s.bufCache i
  s.setBuf i { b with refcnt := (b.refcnt + 2 ^ 32 - 1) % 2 ^ 32, locked := false }

def firstSectorOfCluster (cluster : ℕ) : ℕ :=
  (s.firstDataSector + (cluster + 2 ^ 32 - 2) % 2 ^ 32 * s.sectorsPerCluster) % 2 ^ 32

/-- The device offset of a cluster, converted to `int`. -/
def offsetOf (cluster : ℕ) : ℤ := toInt32 (s.firstSectorOfCluster cluster * 512)

/-- `BufferLayer::read`: the buffer with the bytes of a cluster. -/
def read (disk : ByteMem) (dev : ℤ) (cluster : ℕ) : Kernel (ℕ × BufferLayer) := do
  let (i, s) ← s.allocBuffer dev (toInt32 cluster)
  let b := s.bufCache i
  let data :=
    if b.valid then b.data else rwDevRead disk (s.offsetOf cluster) bsize b.data
  return (i, s.setBuf i { b with valid := true, data := data })

/-- `BufferLayer::write`: the disk after the buffer has been written to it. -/
def write (disk : ByteMem) (i : ℕ) : ByteMem :=
  let b := s.bufCache i
  rwDevWrite disk (s.offsetOf (b.blockno % 2 ^ 32).toNat) bsize b.data

end BufferLayer

end StartOS
