import PhpRuntime.Foundation.Chains
import PhpRuntime.Foundation.Integers

/-! The hash table of `Zend/zend_hash.c`.

A bucket is an address, and each field of `Bucket` is a map from addresses: the bucket
`p` of a table `ht` has the key hash `ht.h p`, the list successor `ht.pListNext p`, and
so on. Addresses below `brk` have been handed out by `pemalloc`; what the maps hold at
other addresses is the unknown content of memory that has not been written yet.

A function whose loop need not end returns `none` when it has taken more steps than
there are buckets. -/

namespace PhpRuntime.Hash

open Function (update)
open PhpRuntime.Linked
open PhpRuntime.Chains (headsWithout)

/-- The pointer in a bucket's `arKey`. An interned string has one address, so it is
named by its bytes; any other key is stored behind the bucket itself. -/
inductive ArKey where
  | null
  | interned (bytes : List UInt8)
  | inline (bytes : List UInt8)
  deriving DecidableEq

namespace ArKey

def bytes : ArKey → List UInt8
  | null => []
  | interned bytes => bytes
  | inline bytes => bytes

/-- `IS_INTERNED`. -/
def isInterned : ArKey → Bool
  | interned _ => true
  | _ => false

end ArKey

/-- The `(arKey, nKeyLength)` pair a caller passes. -/
structure CallerKey where
  interned : Bool
  bytes : List UInt8
  deriving DecidableEq

namespace CallerKey

def nKeyLength (key : CallerKey) : Nat := key.bytes.length

/-- What a bucket stores for the key: the interned pointer, or a copy. -/
def stored (key : CallerKey) : ArKey :=
  if key.interned then .interned key.bytes else .inline key.bytes

/-- `p->arKey == arKey`: only an interned string is shared by a bucket and a caller. -/
def samePointer (key : CallerKey) (arKey : ArKey) : Bool :=
  key.interned && arKey == .interned key.bytes

/-- `!memcmp(p->arKey, arKey, nKeyLength)`. -/
def sameBytes (key : CallerKey) (arKey : ArKey) : Bool :=
  arKey.bytes.take key.nKeyLength == key.bytes

end CallerKey

/-- `zend_inline_hash_func`: times 33, one (signed) character after the other. -/
def zendInlineHashFunc (bytes : List UInt8) : BitVec 64 :=
  bytes.foldl
    (fun hash character => ((hash <<< 5) + hash) + character.toBitVec.signExtend 64) 5381#64

/-! ### Numbers of type `uint` -/

def uint (n : Nat) : Nat := n % 2 ^ 32

/-- `n++`. -/
def uintSucc (n : Nat) : Nat := if n = 2 ^ 32 - 1 then 0 else n + 1

/-- `n--`. -/
def uintPred (n : Nat) : Nat := if n = 0 then 2 ^ 32 - 1 else n - 1

theorem uintSucc_mod (n : Nat) : uintSucc (n % 2 ^ 32) = (n + 1) % 2 ^ 32 := by
  unfold uintSucc
  split <;> omega

theorem uintPred_mod (n : Nat) : uintPred ((n + 1) % 2 ^ 32) = n % 2 ^ 32 := by
  unfold uintPred
  split <;> omega

def longMax : BitVec 64 := BitVec.ofInt 64 Integers.longMax

structure HashTable (α : Type) where
  nTableSize : Nat
  nTableMask : Nat
  nNumOfElements : Nat
  nNextFreeElement : BitVec 64
  pInternalPointer : Option Nat
  pListHead : Option Nat
  pListTail : Option Nat
  arBuckets : Nat → Option Nat
  h : Nat → BitVec 64
  nKeyLength : Nat → Nat
  pData : Nat → α
  pListNext : Nat → Option Nat
  pListLast : Nat → Option Nat
  pNext : Nat → Option Nat
  pLast : Nat → Option Nat
  arKey : Nat → ArKey
  brk : Nat

namespace HashTable

/-- `h & ht->nTableMask`. -/
def index (ht : HashTable α) (h : BitVec 64) : Nat := h.toNat &&& ht.nTableMask

/-- The chain index of a bucket. -/
def slot (ht : HashTable α) (p : Nat) : Nat := ht.index (ht.h p)

/-! ### Construction and linking -/

/-- `while ((1U << i) < nSize) i++`. -/
def initLog (nSize : Nat) : Nat → Nat → Nat
  | 0, i => i
  | fuel + 1, i => if 1 <<< i < nSize then initLog nSize fuel (i + 1) else i

/-- `_zend_hash_init`, on memory that holds anything. -/
def zendHashInit (ht : HashTable α) (nSize : Nat) : HashTable α :=
  { ht with
    nTableSize := if 0x80000000 ≤ nSize then 0x80000000 else 1 <<< initLog nSize 28 3
    nTableMask := 0
    arBuckets := fun _ => none
    pListHead := none
    pListTail := none
    nNumOfElements := 0
    nNextFreeElement := 0
    pInternalPointer := none }

/-- `CHECK_INIT`. -/
def checkInit (ht : HashTable α) : HashTable α :=
  if ht.nTableMask = 0 then
    { ht with arBuckets := fun _ => none, nTableMask := ht.nTableSize - 1 }
  else
    ht

/-- `pemalloc` of a bucket, with the fields the callers then set. -/
def newBucket (ht : HashTable α) (h : BitVec 64) (nKeyLength : Nat) (arKey : ArKey)
    (data : α) : HashTable α :=
  { ht with
    brk := ht.brk + 1
    h := update ht.h ht.brk h
    nKeyLength := update ht.nKeyLength ht.brk nKeyLength
    arKey := update ht.arKey ht.brk arKey
    pData := update ht.pData ht.brk data }

/-- `CONNECT_TO_BUCKET_DLLIST` followed by `ht->arBuckets[nIndex] = p`. -/
def connectToBucketDllist (ht : HashTable α) (p : Nat) (nIndex : Nat) : HashTable α :=
  let listHead := ht.arBuckets nIndex
  { ht with
    pNext := update ht.pNext p listHead
    pLast := assign (update ht.pLast p none) listHead (some p)
    arBuckets := update ht.arBuckets nIndex (some p) }

/-- `CONNECT_TO_GLOBAL_DLLIST_EX`. -/
def connectToGlobalDllistEx (ht : HashTable α) (p : Nat) (last next : Option Nat) :
    HashTable α :=
  { ht with
    pListLast := assign (update ht.pListLast p last) next (some p)
    pListNext := assign (update ht.pListNext p next) last (some p)
    pListHead := if last.isSome then ht.pListHead else some p
    pListTail := if next.isSome then ht.pListTail else some p }

/-- `CONNECT_TO_GLOBAL_DLLIST`. -/
def connectToGlobalDllist (ht : HashTable α) (p : Nat) : HashTable α :=
  let ht := ht.connectToGlobalDllistEx p ht.pListTail none
  { ht with pInternalPointer := ht.pInternalPointer.or (some p) }

def countUp (ht : HashTable α) : HashTable α :=
  { ht with nNumOfElements := uintSucc ht.nNumOfElements }

def countDown (ht : HashTable α) : HashTable α :=
  { ht with nNumOfElements := uintPred ht.nNumOfElements }

/-- Taking a bucket out of its collision chain. -/
def unchain (ht : HashTable α) (p : Nat) : HashTable α :=
  { ht with
    pNext := assign ht.pNext (ht.pLast p) (ht.pNext p)
    pLast := assign ht.pLast (ht.pNext p) (ht.pLast p)
    arBuckets := headsWithout ht.arBuckets (ht.pLast p) (ht.slot p) (ht.pNext p) }

/-- Taking a bucket out of the global list. -/
def unlist (ht : HashTable α) (p : Nat) : HashTable α :=
  { ht with
    pListNext := assign ht.pListNext (ht.pListLast p) (ht.pListNext p)
    pListLast := assign ht.pListLast (ht.pListNext p) (ht.pListLast p)
    pListHead := if (ht.pListLast p).isSome then ht.pListHead else ht.pListNext p
    pListTail := if (ht.pListNext p).isSome then ht.pListTail else ht.pListLast p
    pInternalPointer :=
      if ht.pInternalPointer = some p then ht.pListNext p else ht.pInternalPointer }

/-- `zend_hash_bucket_delete`. -/
def zendHashBucketDelete (ht : HashTable α) (p : Nat) : HashTable α :=
  ((ht.unchain p).unlist p).countDown

/-! ### Rebuilding the chains -/

/-- One step of the `zend_hash_rehash` loop. -/
def rehashStep (ht : HashTable α) (p : Nat) : HashTable α :=
  ht.connectToBucketDllist p (ht.slot p)

def zendHashRehash (ht : HashTable α) : Option (HashTable α) :=
  if ht.nNumOfElements = 0 then
    some ht
  else
    forEach pListNext rehashStep ht.brk ht.pListHead { ht with arBuckets := fun _ => none }

/-- `p->h = offset; p->nKeyLength = 0;` -/
def setNumber (ht : HashTable α) (p : Nat) (offset : BitVec 64) : HashTable α :=
  { ht with h := update ht.h p offset, nKeyLength := update ht.nKeyLength p 0 }

/-- One step of the `zend_hash_reindex` loop; `offset` counts the renumbered buckets. -/
def reindexStep (onlyIntegerKeys : Bool) (state : HashTable α × BitVec 64) (p : Nat) :
    HashTable α × BitVec 64 :=
  let (ht, offset) := state
  if !onlyIntegerKeys || ht.nKeyLength p == 0 then
    ((ht.setNumber p offset).rehashStep p, offset + 1)
  else
    (ht.rehashStep p, offset)

def zendHashReindex (ht : HashTable α) (onlyIntegerKeys : Bool) : Option (HashTable α) :=
  if ht.nNumOfElements = 0 then
    some { ht with nNextFreeElement := 0 }
  else do
    let (ht, offset) ← forEach (fun state => state.1.pListNext) (reindexStep onlyIntegerKeys)
      ht.brk ht.pListHead ({ ht with arBuckets := fun _ => none }, 0)
    some { ht with nNextFreeElement := offset }

def zendHashDoResize (ht : HashTable α) : Option (HashTable α) :=
  let doubled := uint (ht.nTableSize <<< 1)
  if 0 < doubled then
    zendHashRehash { ht with nTableSize := doubled, nTableMask := doubled - 1 }
  else
    some ht

/-- `ZEND_HASH_IF_FULL_DO_RESIZE`. -/
def ifFullDoResize (ht : HashTable α) : Option (HashTable α) :=
  if ht.nTableSize < ht.nNumOfElements then ht.zendHashDoResize else some ht

/-! ### Lookup -/

/-- The test of the string lookups: the pointer first, then hash, length and bytes. -/
def keyMatches (ht : HashTable α) (key : CallerKey) (h : BitVec 64) (p : Nat) : Bool :=
  key.samePointer (ht.arKey p) ||
    (ht.h p == h && ht.nKeyLength p == key.nKeyLength && key.sameBytes (ht.arKey p))

def indexMatches (ht : HashTable α) (h : BitVec 64) (p : Nat) : Bool :=
  ht.nKeyLength p == 0 && ht.h p == h

/-- The loop over the chain that the hash value `h` selects. -/
def searchChain (ht : HashTable α) (accept : Nat → Bool) (h : BitVec 64) :
    Option (Option Nat) :=
  search ht.pNext accept ht.brk (ht.arBuckets (ht.index h))

/-- `*pData` is a pointer into the bucket that is returned here. -/
def zendHashQuickFind (ht : HashTable α) (key : CallerKey) (h : BitVec 64) :
    Option (Option Nat) :=
  ht.searchChain (ht.keyMatches key h) h

def zendHashFind (ht : HashTable α) (key : CallerKey) : Option (Option Nat) :=
  ht.zendHashQuickFind key (zendInlineHashFunc key.bytes)

def zendHashQuickExists (ht : HashTable α) (key : CallerKey) (h : BitVec 64) :
    Option Bool := do
  let found ← ht.searchChain (ht.keyMatches key h) h
  some found.isSome

def zendHashExists (ht : HashTable α) (key : CallerKey) : Option Bool :=
  ht.zendHashQuickExists key (zendInlineHashFunc key.bytes)

def zendHashIndexExists (ht : HashTable α) (h : BitVec 64) : Option Bool := do
  let found ← ht.searchChain (ht.indexMatches h) h
  some found.isSome

/-! ### Insertion

The second component of a result is the bucket that `pDest` points into, and `none` for
`FAILURE`. -/

inductive InsertFlag where
  | update
  | add
  | nextInsert
  deriving DecidableEq

/-- Linking the newest bucket behind the list and in front of its chain. -/
def linkBucket (ht : HashTable α) (p : Nat) : HashTable α :=
  ((ht.connectToBucketDllist p (ht.slot p)).connectToGlobalDllist p).countUp

def zendHashQuickAddOrUpdate (ht : HashTable α) (key : CallerKey) (h : BitVec 64)
    (data : α) (flag : InsertFlag) : Option (HashTable α × Option Nat) := do
  let ht := ht.checkInit
  let found ← ht.searchChain (ht.keyMatches key h) h
  match found with
  | some p =>
      if flag = .add then
        some (ht, none)
      else
        some ({ ht with pData := update ht.pData p data }, some p)
  | none =>
      let p := ht.brk
      let ht := (ht.newBucket h key.nKeyLength key.stored data).linkBucket p
      let ht ← ht.ifFullDoResize
      some (ht, some p)

def zendHashAddOrUpdate (ht : HashTable α) (key : CallerKey) (data : α)
    (flag : InsertFlag) : Option (HashTable α × Option Nat) :=
  ht.zendHashQuickAddOrUpdate key (zendInlineHashFunc key.bytes) data flag

/-- `nNextFreeElement` after the integer key `h` was set. -/
def nextFreeAfter (nextFree h : BitVec 64) : BitVec 64 :=
  if nextFree.toInt ≤ h.toInt then
    if h < longMax then h + 1 else longMax
  else
    nextFree

def raiseNextFree (ht : HashTable α) (h : BitVec 64) : HashTable α :=
  { ht with nNextFreeElement := nextFreeAfter ht.nNextFreeElement h }

def zendHashIndexUpdateOrNextInsert (ht : HashTable α) (h : BitVec 64) (data : α)
    (flag : InsertFlag) : Option (HashTable α × Option Nat) := do
  let ht := ht.checkInit
  let h := if flag = .nextInsert then ht.nNextFreeElement else h
  let found ← ht.searchChain (ht.indexMatches h) h
  match found with
  | some p =>
      if flag = .nextInsert ∨ flag = .add then
        some (ht, none)
      else
        some ({ ht with pData := update ht.pData p data }, some p)
  | none =>
      let p := ht.brk
      let ht := ((ht.newBucket h 0 .null data).linkBucket p).raiseNextFree h
      let ht ← ht.ifFullDoResize
      some (ht, some p)

/-- `zend_hash_next_index_insert`. -/
def zendHashNextIndexInsert (ht : HashTable α) (data : α) :
    Option (HashTable α × Option Nat) :=
  ht.zendHashIndexUpdateOrNextInsert 0 data .nextInsert

/-- `pCopyConstructor(new_entry)`. -/
def construct (ht : HashTable α) (copyConstructor : α → α) (entry : Option Nat) :
    HashTable α :=
  match entry with
  | some p => { ht with pData := update ht.pData p (copyConstructor (ht.pData p)) }
  | none => ht

/-! ### Deletion -/

def zendHashDelKeyOrIndex (ht : HashTable α) (key : CallerKey) (h : BitVec 64) :
    Option (HashTable α × Bool) := do
  let accept := fun p =>
    ht.h p == h && ht.nKeyLength p == key.nKeyLength &&
      (ht.nKeyLength p == 0 || key.sameBytes (ht.arKey p))
  let found ← ht.searchChain accept h
  match found with
  | some p => some (ht.zendHashBucketDelete p, true)
  | none => some (ht, false)

def zendHashDel (ht : HashTable α) (key : CallerKey) : Option (HashTable α × Bool) :=
  ht.zendHashDelKeyOrIndex key (zendInlineHashFunc key.bytes)

def zendHashIndexDel (ht : HashTable α) (h : BitVec 64) : Option (HashTable α × Bool) :=
  ht.zendHashDelKeyOrIndex ⟨false, []⟩ h

def zendHashClean (ht : HashTable α) : HashTable α :=
  { ht with
    arBuckets := if ht.nTableMask = 0 then ht.arBuckets else fun _ => none
    pListHead := none
    pListTail := none
    nNumOfElements := 0
    nNextFreeElement := 0
    pInternalPointer := none }

/-- The two bits of an `apply_func` result. -/
structure ApplyResult where
  remove : Bool
  stop : Bool
  deriving DecidableEq

/-- The loop of the `apply` functions; `results` are the values the callback returns,
one for each bucket visited (`ZEND_HASH_APPLY_KEEP` from their end on). -/
def applyLoop (link : HashTable α → Nat → Option Nat) :
    Nat → Option Nat → List ApplyResult → HashTable α → Option (HashTable α)
  | _, none, _, ht => some ht
  | 0, some _, _, _ => none
  | fuel + 1, some p, results, ht =>
      let result := results.headD ⟨false, false⟩
      let following := link ht p
      let ht := if result.remove then ht.zendHashBucketDelete p else ht
      if result.stop then some ht else applyLoop link fuel following results.tail ht

def zendHashApply (ht : HashTable α) (results : List ApplyResult) : Option (HashTable α) :=
  applyLoop pListNext ht.brk ht.pListHead results ht

def zendHashReverseApply (ht : HashTable α) (results : List ApplyResult) :
    Option (HashTable α) :=
  applyLoop pListLast ht.brk ht.pListTail results ht

/-! ### The internal pointer -/

def zendHashInternalPointerReset (ht : HashTable α) : HashTable α :=
  { ht with pInternalPointer := ht.pListHead }

def zendHashInternalPointerEnd (ht : HashTable α) : HashTable α :=
  { ht with pInternalPointer := ht.pListTail }

def zendHashMoveForward (ht : HashTable α) : HashTable α :=
  { ht with pInternalPointer := ht.pInternalPointer.bind ht.pListNext }

def zendHashMoveBackwards (ht : HashTable α) : HashTable α :=
  { ht with pInternalPointer := ht.pInternalPointer.bind ht.pListLast }

end HashTable

end PhpRuntime.Hash
