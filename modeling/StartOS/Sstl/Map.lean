import StartOS.Lib.Hoare
import StartOS.Memory.OperatorNew

/-! # The hash map

`std::map` chains its nodes from `2 ^ order` buckets. The nodes live on the
heap and a pointer is an address; the block that `new` finds for a node is an
argument. Calls hold the lock of the map from their start to their end.
-/

namespace StartOS

def hash64 (val : UInt64) (bits : UInt32) : UInt64 :=
  let hash := val
  let n := hash
  let n := n <<< 18
  let hash := hash - n
  let n := n <<< 33
  let hash := hash - n
  let n := n <<< 3
  let hash := hash + n
  let n := n <<< 3
  let hash := hash - n
  let n := n <<< 4
  let hash := hash + n
  let n := n <<< 2
  let hash := hash + n
  hash >>> (64 - bits).toUInt64

/-- `HashMapNode`. A value is a pointer. -/
structure HashMapNode (K : Type) where
  next : ℕ
  key : K
  val : ℕ
  deriving DecidableEq, Repr

/-- `std::map` and the nodes on the heap. -/
structure HashMap (K : Type) where
  hashtable : ℕ → ℕ
  bits : UInt32
  numBucket : ℕ
  nodes : ℕ → Option (HashMapNode K)

abbrev MapM (K : Type) := StateT (HashMap K) Kernel

namespace HashMap

variable {K : Type}

/-- The constructor, with its table from `operator new[]`. From 31 on the shift leaves an `int`. -/
def create (heap : BuddyAllocator) (order : UInt32) : Kernel (HashMap K × BuddyAllocator) :=
  if order ≥ 31 then .error .fault
  else do
    let (_, heap) ← heap.operatorNewArray (2 ^ order.toNat * 8)
    return (⟨fun _ => 0, order, 2 ^ order.toNat, fun _ => none⟩, heap)

def node (p : ℕ) : MapM K (HashMapNode K) := do
  match (← get).nodes p with
  | some n => return n
  | none => throw .fault

def Fresh (m : HashMap K) (p : ℕ) : Prop := 0 < p ∧ p < physTop ∧ m.nodes p = none

instance (m : HashMap K) (p : ℕ) [DecidableEq K] : Decidable (m.Fresh p) :=
  inferInstanceAs (Decidable (_ ∧ _ ∧ _))

def Answer (m : HashMap K) (blk : Option ℕ) : Prop := ∀ p ∈ blk, m.Fresh p

/-- `new Node`, with the block for it or with `none` when no memory is left. -/
def newNode : Option ℕ → MapM K ℕ
  | some p => return p
  | none => throw (.panic "buddy alloc")

def setNode (p : ℕ) (n : HashMapNode K) : MapM K Unit :=
  modify fun m => { m with nodes := Function.update m.nodes p (some n) }

/-- `node->next = q`. -/
def setNext (p q : ℕ) : MapM K Unit := do
  let n ← node p
  setNode p { n with next := q }

def deleteNode (p : ℕ) : MapM K Unit :=
  modify fun m => { m with nodes := Function.update m.nodes p none }

/-- `hashtable_[h]`. -/
def bucket (h : ℕ) : MapM K ℕ := do
  let m ← get
  if h < m.numBucket then return m.hashtable h else throw .fault

/-- `hashtable_[h] = p`. -/
def setBucket (h p : ℕ) : MapM K Unit := do
  if h < (← get).numBucket then
    modify fun m => { m with hashtable := Function.update m.hashtable h p }
  else throw .fault

/-- `begin`, or the part of `operator++` behind the end of a chain: the first node of the `n`
buckets from number `i` on. -/
def beginFrom : ℕ → ℕ → MapM K ℕ
  | 0, _ => return 0
  | n + 1, i => do
    let p ← bucket i
    if p ≠ 0 then return p
    beginFrom n (i + 1)

section

variable [DecidableEq K] (conv : K → UInt64)

/-- `hash`, for the conversion of a key to `uint64_t`. -/
def hash (m : HashMap K) (key : K) : ℕ := (hash64 (conv key) (m.bits - 1)).toUInt32.toNat

/-- The loop of `put` and `get`. The nodes of a chain have different addresses, so there are
fewer than `physTop`. -/
def find (key : K) : ℕ → ℕ → MapM K ℕ
  | 0, _ => throw .hang
  | n + 1, p => do
    if p = 0 then return p
    let nd ← node p
    if nd.key = key then return p
    find key n nd.next

/-- `put`, with the block for the new node. -/
def put (blk : Option ℕ) (key : K) (val : ℕ) : MapM K Unit := do
  let h := (← get).hash conv key
  let found ← find key physTop (← bucket h)
  if found ≠ 0 then throw (.panic "hash map put")
  let p ← newNode blk
  setNode p ⟨0, key, val⟩
  setNext p (← bucket h)
  setBucket h p

def get' (key : K) : MapM K ℕ := do
  let h := (← get).hash conv key
  let p ← find key physTop (← bucket h)
  if p = 0 then return 0
  return (← node p).val

/-- The loop of `poll`, which stops at the last node. -/
def pollLoop (key : K) : ℕ → ℕ → ℕ → MapM K (ℕ × ℕ)
  | 0, _, _ => throw .hang
  | n + 1, dummy, p => do
    let nd ← node p
    if nd.next ≠ 0 ∧ nd.key ≠ key then pollLoop key n p nd.next
    else return (dummy, p)

/-- `poll`, with the block for the node `dummy`, which is never given back; `junk` is what is
found there. -/
def poll (blk : Option ℕ) (junk : HashMapNode K) (key : K) : MapM K ℕ := do
  let h := (← get).hash conv key
  let d ← newNode blk
  setNode d junk
  let head ← bucket h
  if head = 0 then throw (.panic "poll")
  setNext d head
  let (dummy, p) ← pollLoop key physTop d head
  if p = 0 then return 0
  let nd ← node p
  setNext dummy nd.next
  if head = p then setBucket h nd.next
  deleteNode p
  return nd.val

def begin' : MapM K ℕ := do beginFrom (← get).numBucket 0

/-- `MapIterator::operator++` at a node. -/
def next (p : ℕ) : MapM K ℕ := do
  let nd ← node p
  if nd.next ≠ 0 then return nd.next
  let m ← get
  let index := m.hash conv nd.key
  beginFrom (m.numBucket - (index + 1)) (index + 1)

/-- The keys that a loop with `operator++` sees from `p` up to the null pointer. -/
def keysFrom : ℕ → ℕ → MapM K (List K)
  | 0, _ => throw .hang
  | n + 1, p => do
    if p = 0 then return []
    let nd ← node p
    return nd.key :: (← keysFrom n (← next conv p))

/-- The keys that a loop from `begin` sees. Every turn is at another node. -/
def keys : MapM K (List K) := do keysFrom conv physTop (← begin')

end

end HashMap

end StartOS
