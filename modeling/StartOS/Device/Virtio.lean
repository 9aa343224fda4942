import Mathlib.Algebra.Group.Nat.Defs
import Mathlib.Data.List.Range
import Mathlib.Logic.Function.Basic
import Mathlib.Logic.Relation

/-! # The virtio disk

`VirtioRw`, `VirtioIntr` and the device behind the two rings, one step for each
access to memory that the device uses as well. What only the holder of `vdiskLock`
touches may change in one step with it. Any number of calls, interrupts and steps
of the device follow each other in any order.
-/

namespace StartOS

inductive VirtioAddr
  | null
  /-- `&ops[i]`. -/
  | op (i : ℕ)
  /-- The buffer of a caller. -/
  | buf (p : ℕ)
  /-- `&info[i].status`. -/
  | status (i : ℕ)
  deriving DecidableEq

structure VirtqDesc where
  addr : VirtioAddr
  len : ℕ
  flags : ℕ
  next : ℕ
  deriving DecidableEq

structure VirtqAvail where
  idx : ℕ
  ring : ℕ → ℕ

/-- `virtq_used`, with the `id` of each element. -/
structure VirtqUsed where
  idx : ℕ
  ring : ℕ → ℕ

structure VirtioBlkReq where
  type : ℕ
  reserved : ℕ
  sector : ℕ
  deriving DecidableEq

/-- What `info` records of an operation. -/
structure VirtioInfo where
  data : ℕ
  finish : Bool
  status : ℕ

/-- `VirtioDisk` without its lock. -/
structure VirtioDisk where
  desc : ℕ → VirtqDesc
  avail : VirtqAvail
  used : VirtqUsed
  free : ℕ → Bool
  usedIdx : ℕ
  info : ℕ → VirtioInfo
  ops : ℕ → VirtioBlkReq

/-- The arguments of a call of `VirtioRw`. -/
structure RwArgs where
  buf : ℕ
  sector : ℕ
  write : Bool

/-- `idx` of `VirtioRw` once `alloc3_desc` has filled it. -/
structure DescTriple where
  a : ℕ
  b : ℕ
  c : ℕ
  deriving DecidableEq

inductive VirtioPanic
  | freeDesc1
  | freeDesc2
  | intrStatus
  deriving DecidableEq

namespace VirtioDisk

def num : ℕ := 8

/-- `VRING_DESC_F_NEXT`. -/
def descNext : ℕ := 1

/-- `VRING_DESC_F_WRITE`. -/
def descWrite : ℕ := 2

def incr (i : ℕ) : ℕ := (i + 1) % 2 ^ 16

/-- `alloc_desc`, with `none` for a result of -1. -/
def allocDesc (d : VirtioDisk) : Option (ℕ × VirtioDisk) :=
  ((List.range num).find? d.free).map fun i =>
    (i, { d with free := Function.update d.free i false })

/-- `free_desc` up to its `wakeup`. -/
def freeDesc (d : VirtioDisk) (i : ℕ) : Except VirtioPanic VirtioDisk :=
  if num ≤ i then .error .freeDesc1
  else if d.free i then .error .freeDesc2
  else .ok { d with
    desc := Function.update d.desc i ⟨.null, 0, 0, 0⟩
    free := Function.update d.free i true }

def chainFrom (d : VirtioDisk) : ℕ → ℕ → List VirtqDesc
  | 0, _ => []
  | n + 1, i =>
    d.desc i :: if (d.desc i).flags &&& descNext ≠ 0 then chainFrom d n (d.desc i).next else []

end VirtioDisk

namespace DescTriple

def list (x : DescTriple) : List ℕ := [x.a, x.b, x.c]

def first (x : DescTriple) : VirtqDesc := ⟨.op x.a, 16, VirtioDisk.descNext, x.b⟩

def third (x : DescTriple) : VirtqDesc := ⟨.status x.a, 1, VirtioDisk.descWrite, 0⟩

end DescTriple

/-- What a request asks of the device: `len` bytes of `buf`, which the device writes or reads. -/
structure VirtioRequest where
  type : ℕ
  sector : ℕ
  buf : ℕ
  len : ℕ
  deviceWrites : Bool
  deriving DecidableEq

namespace RwArgs

def header (c : RwArgs) : VirtioBlkReq := ⟨if c.write then 1 else 0, 0, c.sector⟩

def second (c : RwArgs) (x : DescTriple) : VirtqDesc :=
  ⟨.buf c.buf, 512, (if c.write then 0 else VirtioDisk.descWrite) ||| VirtioDisk.descNext, x.c⟩

def request (c : RwArgs) : VirtioRequest :=
  ⟨if c.write then 1 else 0, c.sector, c.buf, 512, !c.write⟩

end RwArgs

/-- The stores of `VirtioRw` between `alloc3_desc` and the available ring. -/
inductive FillStep
  | header
  | first
  | second
  | third
  | record
  deriving DecidableEq

namespace FillStep

def next : FillStep → Option FillStep
  | header => some first
  | first => some second
  | second => some third
  | third => some record
  | record => none

def store (c : RwArgs) (x : DescTriple) : FillStep → VirtioDisk → VirtioDisk
  | header, d => { d with ops := Function.update d.ops x.a c.header }
  | first, d => { d with desc := Function.update d.desc x.a x.first }
  | second, d => { d with desc := Function.update d.desc x.b (c.second x) }
  | third, d => { d with
      info := Function.update d.info x.a { d.info x.a with status := 0xff }
      desc := Function.update d.desc x.c x.third }
  | record, d => { d with
      info := Function.update d.info x.a { d.info x.a with finish := false, data := c.buf } }

end FillStep

/-- What a call of `VirtioRw` sleeps on. -/
inductive VirtioChan
  | free
  | data (p : ℕ)
  deriving DecidableEq

/-- The next thing a call of `VirtioRw` does. -/
inductive RwPc
  | idle
  /-- `vdiskLock.lock()`, or the end of the `sleep` on `free[0]`. -/
  | acquire
  /-- `alloc_desc` in `alloc3_desc`, which has already got `got`. -/
  | alloc (got : List ℕ)
  /-- `free_desc` in `alloc3_desc` of those that are `left`, then the `sleep` on `free[0]`. -/
  | undo (left : List ℕ)
  | asleepFree
  | fill (k : FillStep) (x : DescTriple)
  /-- `avail->ring[avail->idx % NUM] = idx[0]`. -/
  | ring (x : DescTriple)
  /-- `avail->idx += 1`. -/
  | publish (x : DescTriple)
  /-- `while (info[idx[0]].finish == false)`. -/
  | test (x : DescTriple)
  | asleep (x : DescTriple)
  /-- The end of the `sleep` on `buf`. -/
  | relock (x : DescTriple)
  /-- `info[idx[0]].data = 0`. -/
  | clear (x : DescTriple)
  /-- The loop of `free_chain` at descriptor `i`. -/
  | freeChain (x : DescTriple) (i : ℕ)
  /-- `vdiskLock.unlock()`. -/
  | release
  | returned
  | panic (p : VirtioPanic)
  deriving DecidableEq

namespace RwPc

/-- The call goes on when `alloc_desc` has found the last of `got`. -/
def allocated : List ℕ → RwPc
  | [a, b, c] => fill .header ⟨a, b, c⟩
  | got => alloc got

def filled (k : FillStep) (x : DescTriple) : RwPc :=
  match k.next with
  | some k => fill k x
  | none => ring x

/-- The call in its turn of `wakeup`. -/
def woken (chan : VirtioChan) (buf : ℕ) : RwPc → RwPc
  | asleepFree => if chan = .free then acquire else asleepFree
  | asleep x => if chan = .data buf then relock x else asleep x
  | pc => pc

def held : RwPc → List ℕ
  | alloc got => got
  | undo left => left
  | fill _ x | ring x | publish x | test x | asleep x | relock x | clear x => x.list
  | freeChain x i => x.list.dropWhile (· ≠ i)
  | _ => []

/-- The call is in the middle of `alloc3_desc` or `free_chain`. -/
def moving : RwPc → Bool
  | alloc _ | undo _ | freeChain _ _ => true
  | _ => false

def waits : RwPc → Option DescTriple
  | test x | asleep x | relock x => some x
  | _ => none

end RwPc

/-- The next thing a `VirtioIntr` does. -/
inductive IntrPc
  | idle
  | acquire
  /-- `while (used_idx != used->idx)`. -/
  | test
  /-- `used->ring[used_idx % NUM].id`. -/
  | read
  /-- `info[id].status != 0`. -/
  | check (id : ℕ)
  /-- `finish = true`, `wakeup` and `used_idx += 1`. -/
  | mark (id : ℕ)
  | release
  | returned
  | panic (p : VirtioPanic)
  deriving DecidableEq

/-- A chain the device has taken: what it has read, and how many it had taken before. -/
structure TakenChain where
  pos : ℕ
  head : ℕ
  op : Option VirtioBlkReq
  chain : List VirtqDesc

namespace TakenChain

/-- The chain that starts at `head`. -/
def read (d : VirtioDisk) (pos head : ℕ) : TakenChain where
  pos := pos
  head := head
  op := match (d.desc head).addr with
    | .op i => some (d.ops i)
    | _ => none
  chain := d.chainFrom VirtioDisk.num head

def request (e : TakenChain) : Option VirtioRequest :=
  match e.op, e.chain with
  | some op, [_, ⟨.buf p, len, flags, _⟩, _] =>
    some ⟨op.type, op.sector, p, len, flags &&& VirtioDisk.descWrite ≠ 0⟩
  | _, _ => none

def complete (e : TakenChain) (d : VirtioDisk) : VirtioDisk :=
  match e.chain.getLast? with
  | some ⟨.status i, _, _, _⟩ =>
    { d with info := Function.update d.info i { d.info i with status := 0 } }
  | _ => d

end TakenChain

/-- The device: how many heads it has taken, the chains it works on, those whose status it has
written, the one it is adding to the used ring and those it has added. -/
structure VirtioDevice where
  count : ℕ
  taken : List TakenChain
  written : List TakenChain
  posting : Option TakenChain
  posted : List TakenChain

/-- The disk with the calls, interrupts and the device that use it. `published` are the calls that
have told the device about their chain, in that order, and `handled` counts the elements of the
used ring that were looked at. -/
structure VirtioState (ι κ : Type*) where
  disk : VirtioDisk
  lock : Option (ι ⊕ κ)
  rw : ι → RwPc
  intr : κ → IntrPc
  dev : VirtioDevice
  published : List ι
  handled : ℕ

namespace VirtioState

open VirtioDisk

variable {ι κ : Type*} [DecidableEq ι] [DecidableEq κ]

def goto (s : VirtioState ι κ) (t : ι) (pc : RwPc) : VirtioState ι κ :=
  { s with rw := Function.update s.rw t pc }

def gotoIntr (s : VirtioState ι κ) (k : κ) (pc : IntrPc) : VirtioState ι κ :=
  { s with intr := Function.update s.intr k pc }

omit [DecidableEq ι] [DecidableEq κ] in
def wakeup (calls : ι → RwArgs) (s : VirtioState ι κ) (chan : VirtioChan) : VirtioState ι κ :=
  { s with rw := fun t => (s.rw t).woken chan (calls t).buf }

/-- One step of a call, of an interrupt or of the device. -/
inductive Step (calls : ι → RwArgs) : VirtioState ι κ → VirtioState ι κ → Prop
  /-- `VirtioRw` is called. -/
  | call (s : VirtioState ι κ) (t : ι) (hpc : s.rw t = .idle) :
      Step calls s (s.goto t .acquire)
  | acquire (s : VirtioState ι κ) (t : ι) (hpc : s.rw t = .acquire) (hfree : s.lock = none) :
      Step calls s { s.goto t (.alloc []) with lock := some (.inl t) }
  | alloc (s : VirtioState ι κ) (t : ι) {got : List ℕ} {i : ℕ} {d : VirtioDisk}
      (hpc : s.rw t = .alloc got) (hd : s.disk.allocDesc = some (i, d)) :
      Step calls s { s.goto t (.allocated (got ++ [i])) with disk := d }
  | allocFails (s : VirtioState ι κ) (t : ι) {got : List ℕ} (hpc : s.rw t = .alloc got)
      (hd : s.disk.allocDesc = none) :
      Step calls s (s.goto t (.undo got))
  | undo (s : VirtioState ι κ) (t : ι) {i : ℕ} {left : List ℕ} {d : VirtioDisk}
      (hpc : s.rw t = .undo (i :: left)) (hd : s.disk.freeDesc i = .ok d) :
      Step calls s { (s.wakeup calls .free).goto t (.undo left) with disk := d }
  | undoPanics (s : VirtioState ι κ) (t : ι) {i : ℕ} {left : List ℕ} {p : VirtioPanic}
      (hpc : s.rw t = .undo (i :: left)) (hd : s.disk.freeDesc i = .error p) :
      Step calls s (s.goto t (.panic p))
  | sleepFree (s : VirtioState ι κ) (t : ι) (hpc : s.rw t = .undo []) :
      Step calls s { s.goto t .asleepFree with lock := none }
  | fill (s : VirtioState ι κ) (t : ι) {k : FillStep} {x : DescTriple} (hpc : s.rw t = .fill k x) :
      Step calls s { s.goto t (.filled k x) with disk := k.store (calls t) x s.disk }
  | ring (s : VirtioState ι κ) (t : ι) {x : DescTriple} (hpc : s.rw t = .ring x) :
      Step calls s { s.goto t (.publish x) with
        disk := { s.disk with avail := { s.disk.avail with
          ring := Function.update s.disk.avail.ring (s.disk.avail.idx % num) x.a } } }
  /-- The device may take the chain from here on, before `VIRTIO_MMIO_QUEUE_NOTIFY` or after. -/
  | publish (s : VirtioState ι κ) (t : ι) {x : DescTriple} (hpc : s.rw t = .publish x) :
      Step calls s { s.goto t (.test x) with
        disk := { s.disk with avail := { s.disk.avail with idx := incr s.disk.avail.idx } }
        published := s.published ++ [t] }
  | testFinish (s : VirtioState ι κ) (t : ι) {x : DescTriple} (hpc : s.rw t = .test x)
      (hf : (s.disk.info x.a).finish = true) :
      Step calls s (s.goto t (.clear x))
  | testSleep (s : VirtioState ι κ) (t : ι) {x : DescTriple} (hpc : s.rw t = .test x)
      (hf : (s.disk.info x.a).finish = false) :
      Step calls s { s.goto t (.asleep x) with lock := none }
  | relock (s : VirtioState ι κ) (t : ι) {x : DescTriple} (hpc : s.rw t = .relock x)
      (hfree : s.lock = none) :
      Step calls s { s.goto t (.test x) with lock := some (.inl t) }
  | clear (s : VirtioState ι κ) (t : ι) {x : DescTriple} (hpc : s.rw t = .clear x) :
      Step calls s { s.goto t (.freeChain x x.a) with
        disk := { s.disk with
          info := Function.update s.disk.info x.a { s.disk.info x.a with data := 0 } } }
  | freeChain (s : VirtioState ι κ) (t : ι) {x : DescTriple} {i : ℕ} {d : VirtioDisk}
      (hpc : s.rw t = .freeChain x i) (hd : s.disk.freeDesc i = .ok d) :
      Step calls s { (s.wakeup calls .free).goto t
          (if (s.disk.desc i).flags &&& descNext ≠ 0 then .freeChain x (s.disk.desc i).next
            else .release) with disk := d }
  | freePanics (s : VirtioState ι κ) (t : ι) {x : DescTriple} {i : ℕ} {p : VirtioPanic}
      (hpc : s.rw t = .freeChain x i) (hd : s.disk.freeDesc i = .error p) :
      Step calls s (s.goto t (.panic p))
  /-- `VirtioRw` returns. -/
  | release (s : VirtioState ι κ) (t : ι) (hpc : s.rw t = .release) :
      Step calls s { s.goto t .returned with lock := none }
  /-- A task is woken by something else. -/
  | wakeOther (s : VirtioState ι κ) (t : ι) (chan : VirtioChan) :
      Step calls s (s.goto t ((s.rw t).woken chan (calls t).buf))
  /-- An interrupt comes. -/
  | interrupt (s : VirtioState ι κ) (k : κ) (hpc : s.intr k = .idle) :
      Step calls s (s.gotoIntr k .acquire)
  | acquireIntr (s : VirtioState ι κ) (k : κ) (hpc : s.intr k = .acquire) (hfree : s.lock = none) :
      Step calls s { s.gotoIntr k .test with lock := some (.inr k) }
  | testUsed (s : VirtioState ι κ) (k : κ) (hpc : s.intr k = .test)
      (hne : s.disk.usedIdx ≠ s.disk.used.idx) :
      Step calls s (s.gotoIntr k .read)
  | testEmpty (s : VirtioState ι κ) (k : κ) (hpc : s.intr k = .test)
      (heq : s.disk.usedIdx = s.disk.used.idx) :
      Step calls s (s.gotoIntr k .release)
  | read (s : VirtioState ι κ) (k : κ) (hpc : s.intr k = .read) :
      Step calls s (s.gotoIntr k (.check (s.disk.used.ring (s.disk.usedIdx % num))))
  | check (s : VirtioState ι κ) (k : κ) {id : ℕ} (hpc : s.intr k = .check id)
      (hst : (s.disk.info id).status = 0) :
      Step calls s (s.gotoIntr k (.mark id))
  | checkPanics (s : VirtioState ι κ) (k : κ) {id : ℕ} (hpc : s.intr k = .check id)
      (hst : (s.disk.info id).status ≠ 0) :
      Step calls s (s.gotoIntr k (.panic .intrStatus))
  | mark (s : VirtioState ι κ) (k : κ) {id : ℕ} (hpc : s.intr k = .mark id) :
      Step calls s { (s.wakeup calls (.data (s.disk.info id).data)).gotoIntr k .test with
        disk := { s.disk with
          info := Function.update s.disk.info id { s.disk.info id with finish := true }
          usedIdx := incr s.disk.usedIdx }
        handled := s.handled + 1 }
  | releaseIntr (s : VirtioState ι κ) (k : κ) (hpc : s.intr k = .release) :
      Step calls s { s.gotoIntr k .returned with lock := none }
  /-- The device takes the next head from the available ring. -/
  | take (s : VirtioState ι κ) (hne : s.disk.avail.idx ≠ s.dev.count % 2 ^ 16) :
      Step calls s { s with dev := { s.dev with
        count := s.dev.count + 1
        taken := s.dev.taken ++ [.read s.disk s.dev.count
          (s.disk.avail.ring (s.dev.count % 2 ^ 16 % num))] } }
  /-- The device has done any of its requests. -/
  | complete (s : VirtioState ι κ) {l l' : List TakenChain} {e : TakenChain}
      (ht : s.dev.taken = l ++ e :: l') :
      Step calls s { s with
        disk := e.complete s.disk
        dev := { s.dev with taken := l ++ l', written := s.dev.written ++ [e] } }
  /-- The device stores a head in the used ring. -/
  | post (s : VirtioState ι κ) {l l' : List TakenChain} {e : TakenChain}
      (hw : s.dev.written = l ++ e :: l') (hp : s.dev.posting = none) :
      Step calls s { s with
        disk := { s.disk with used := { s.disk.used with
          ring := Function.update s.disk.used.ring (s.disk.used.idx % num) e.head } }
        dev := { s.dev with written := l ++ l', posting := some e } }
  /-- The device counts the head it has stored. -/
  | posted (s : VirtioState ι κ) {e : TakenChain} (hp : s.dev.posting = some e) :
      Step calls s { s with
        disk := { s.disk with used := { s.disk.used with idx := incr s.disk.used.idx } }
        dev := { s.dev with posting := none, posted := s.dev.posted ++ [e] } }

/-- `VirtioInit` is over, and nobody has called yet. -/
structure Initial (s : VirtioState ι κ) : Prop where
  free : ∀ i < num, s.disk.free i = true
  avail : s.disk.avail.idx = 0
  used : s.disk.used.idx = 0
  usedIdx : s.disk.usedIdx = 0
  lock : s.lock = none
  rw : ∀ t, s.rw t = .idle
  intr : ∀ k, s.intr k = .idle
  dev : s.dev = ⟨0, [], [], none, []⟩
  published : s.published = []
  handled : s.handled = 0

end VirtioState

end StartOS
