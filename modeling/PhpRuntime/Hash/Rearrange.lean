import PhpRuntime.Hash.Table

/-! The operations of `Zend/zend_hash.c` that move, renumber or rename buckets that are
already in a table, and those that read a second table. The buckets of two tables are
never shared, so each table has an address space of its own. -/

namespace PhpRuntime.Hash

open Function (update)
open PhpRuntime.Linked
open PhpRuntime.Integers (counted)

/-- The key type and key of `zend_hash_update_current_key_ex`. -/
inductive RenameKey where
  | long (numIndex : BitVec 64)
  | string (strIndex : CallerKey)
  deriving DecidableEq

namespace RenameKey

/-- The new value of `p->h`; an interned string carries its hash with it. -/
def hash : RenameKey → BitVec 64
  | long numIndex => numIndex
  | string strIndex => zendInlineHashFunc strIndex.bytes

/-- `str_length`, which is set to 0 for an integer key. -/
def strLength : RenameKey → Nat
  | long _ => 0
  | string strIndex => strIndex.nKeyLength

/-- `IS_INTERNED(str_index)`; callers pass `NULL` with an integer key. -/
def isInterned : RenameKey → Bool
  | long _ => false
  | string strIndex => strIndex.interned

end RenameKey

inductive UpdateKeyMode where
  | ifNone
  | ifBefore
  | ifAfter
  | anyway
  deriving DecidableEq

def UpdateKeyMode.bits : UpdateKeyMode → Nat
  | ifNone => 0
  | ifBefore => 1
  | ifAfter => 2
  | anyway => 3

namespace HashTable

/-! ### Renaming a key -/

def renameMatches (ht : HashTable α) : RenameKey → Nat → Bool
  | .long numIndex, p => ht.indexMatches numIndex p
  | .string strIndex, p => ht.keyMatches strIndex (zendInlineHashFunc strIndex.bytes) p

/-- Replacing the bucket `p` by a new one at the same place in the list. Its `h` and
`arKey` are not written here. -/
def moveBucket (ht : HashTable α) (p strLength : Nat) : HashTable α :=
  let q := ht.brk
  let ht := { ht with
    brk := ht.brk + 1
    nKeyLength := update ht.nKeyLength q strLength
    pData := update ht.pData q (ht.pData p) }
  let ht := ht.connectToGlobalDllistEx q (ht.pListLast p) (ht.pListNext p)
  { ht with
    pInternalPointer := if ht.pInternalPointer = some p then some q else ht.pInternalPointer }

/-- Whether the new key needs a bucket of another size. -/
def needsMove (ht : HashTable α) (p : Nat) (key : RenameKey) : Bool :=
  (ht.arKey p).isInterned != key.isInterned ||
    (!(ht.arKey p).isInterned && ht.nKeyLength p != key.strLength)

def setKey (ht : HashTable α) (p : Nat) : RenameKey → HashTable α
  | .long numIndex => { ht with h := update ht.h p numIndex }.raiseNextFree numIndex
  | .string strIndex =>
      { ht with
        h := update ht.h p (zendInlineHashFunc strIndex.bytes)
        nKeyLength := update ht.nKeyLength p strIndex.nKeyLength
        arKey := update ht.arKey p strIndex.stored }

/-- Setting the key of `p`, which is in the list but in no chain, and chaining it. -/
def rekey (ht : HashTable α) (p : Nat) (key : RenameKey) : HashTable α :=
  (ht.setKey p key).rehashStep p

/-- The end of a rename, when no other bucket has the new key. The result is the table,
the new `*pos` and the return value. -/
def finishRename (ht : HashTable α) (p : Nat) (key : RenameKey)
    (pos : Option (Option Nat)) : HashTable α × Option (Option Nat) × Bool :=
  let ht := ht.unchain p
  if ht.needsMove p key then
    ((ht.moveBucket p key.strLength).rekey ht.brk key, pos.map fun _ => some ht.brk, true)
  else
    (ht.rekey p key, pos, true)

/-- A rename onto the key of another bucket `q`. -/
def renameOver (ht : HashTable α) (p q : Nat) (key : RenameKey) (mode : UpdateKeyMode)
    (pos : Option (Option Nat)) : Option (HashTable α × Option (Option Nat) × Bool) :=
  if mode = .anyway then
    some ((ht.zendHashBucketDelete q).finishRename p key pos)
  else do
    let earlier ← search ht.pListLast (· == q) ht.brk (ht.pListLast p)
    let found := if earlier.isSome then UpdateKeyMode.ifAfter else .ifBefore
    if mode.bits &&& found.bits ≠ 0 then
      some (ht.zendHashBucketDelete p, pos, false)
    else
      some ((ht.zendHashBucketDelete q).finishRename p key pos)

/-- `key` is `none` for a key type that is neither a string nor an integer. -/
def zendHashUpdateCurrentKeyEx (ht : HashTable α) (key : Option RenameKey)
    (mode : UpdateKeyMode) (pos : Option (Option Nat)) :
    Option (HashTable α × Option (Option Nat) × Bool) :=
  match pos.getD ht.pInternalPointer, key with
  | some p, some key =>
      if ht.renameMatches key p then
        some (ht, pos, true)
      else do
        let found ← ht.searchChain (ht.renameMatches key) key.hash
        match found with
        | some q => ht.renameOver p q key mode pos
        | none => some (ht.finishRename p key pos)
  | _, _ => some (ht, pos, false)

/-! ### Sorting -/

/-- `while (p) { arTmp[i] = p; p = p->pListNext; i++; }` with an `int i`; `none` where `i++`
overflows. -/
def fillArTmp (ht : HashTable α) : Nat → Option Nat → Nat → Option (List Nat)
  | _, none, _ => some []
  | 0, some _, _ => none
  | fuel + 1, some p, i => do
      let i ← counted (i + 1)
      (ht.fillArTmp fuel (ht.pListNext p) i).map (p :: ·)

/-- Writing the list links of the sorted buckets. -/
def relinkList (ht : HashTable α) (before : Option Nat) : List Nat → HashTable α
  | [] => ht
  | p :: rest =>
      relinkList
        { ht with
          pListLast := update ht.pListLast p before
          pListNext := update ht.pListNext p rest.head? }
        (some p) rest

/-- The table with its list in a new order. -/
def relinked (ht : HashTable α) (arTmp : List Nat) : HashTable α :=
  { ht.relinkList none arTmp with
    pListHead := arTmp.head?
    pListTail := arTmp.getLast?
    pInternalPointer := arTmp.head? }

def zendHashSort (ht : HashTable α) (sortFunc : List Nat → Option (List Nat))
    (renumber : Bool) : Option (HashTable α) :=
  if ¬ 1 < ht.nNumOfElements ∧ ¬ (renumber = true ∧ 0 < ht.nNumOfElements) then
    some ht
  else do
    let arTmp ← ht.fillArTmp ht.brk ht.pListHead 0
    let arTmp ← sortFunc arTmp
    let ht := ht.relinked arTmp
    if renumber then ht.zendHashReindex false else some ht

/-! ### Operations with a second table -/

/-- The pointer and length a caller passes on from the bucket `p` of another table. The
pointer of a key stored behind that bucket is not in any bucket here. -/
def callerKey (ht : HashTable α) (p : Nat) : CallerKey :=
  ⟨(ht.arKey p).isInterned, (ht.arKey p).bytes.take (ht.nKeyLength p)⟩

/-- Storing the bucket `p` of `source` under its own key. -/
def insertFrom (target source : HashTable α) (p : Nat) (flag : InsertFlag) :
    Option (HashTable α × Option Nat) :=
  if source.nKeyLength p ≠ 0 then
    target.zendHashQuickAddOrUpdate (source.callerKey p) (source.h p) (source.pData p) flag
  else
    target.zendHashIndexUpdateOrNextInsert (source.h p) (source.pData p) .update

/-- The same, followed by the copy constructor. -/
def copyFrom (target source : HashTable α) (p : Nat) (flag : InsertFlag)
    (copyConstructor : α → α) : Option (HashTable α) := do
  let (target, entry) ← target.insertFrom source p flag
  some (target.construct copyConstructor entry)

/-- One step of the `zend_hash_copy` loop. -/
def copyStep (source : HashTable α) (copyConstructor : α → α) (setTargetPointer : Bool)
    (target : HashTable α) (p : Nat) : Option (HashTable α) :=
  if setTargetPointer ∧ source.pInternalPointer = some p then
    { target with pInternalPointer := none }.copyFrom source p .update copyConstructor
  else
    target.copyFrom source p .update copyConstructor

def zendHashCopy (target source : HashTable α) (copyConstructor : α → α) :
    Option (HashTable α) := do
  let listed ← follow source.pListNext source.brk source.pListHead
  let target ← listed.foldlM
    (copyStep source copyConstructor target.pInternalPointer.isNone) target
  some { target with pInternalPointer := target.pInternalPointer.or target.pListHead }

/-- One step of the `_zend_hash_merge` loop. -/
def mergeStep (source : HashTable α) (copyConstructor : α → α) (mode : InsertFlag)
    (target : HashTable α) (p : Nat) : Option (HashTable α) :=
  if 0 < source.nKeyLength p ∨ mode = .update then
    target.copyFrom source p mode copyConstructor
  else do
    let present ← target.zendHashIndexExists (source.h p)
    if present then some target else target.copyFrom source p mode copyConstructor

def zendHashMerge (target source : HashTable α) (copyConstructor : α → α)
    (overwrite : Bool) : Option (HashTable α) := do
  let listed ← follow source.pListNext source.brk source.pListHead
  let mode := if overwrite then InsertFlag.update else .add
  let target ← listed.foldlM (mergeStep source copyConstructor mode) target
  some { target with pInternalPointer := target.pListHead }

/-! ### Splicing -/

/-- The loop that skips to `offset`; the result is `pos` and `p`. -/
def skipTo (ht : HashTable α) : Nat → Nat → Option Nat → Nat × Option Nat
  | 0, pos, p => (pos, p)
  | _ + 1, pos, none => (pos, none)
  | count + 1, pos, some p => ht.skipTo count (pos + 1) (ht.pListNext p)

/-- Storing a bucket that is about to be removed: integer keys are given anew. -/
def insertRemoved (removed ht : HashTable α) (p : Nat) : Option (HashTable α × Option Nat) :=
  if ht.nKeyLength p = 0 then
    removed.zendHashNextIndexInsert (ht.pData p)
  else
    removed.zendHashQuickAddOrUpdate (ht.callerKey p) (ht.h p) (ht.pData p) .update

def collectRemoved (removed : Option (HashTable α)) (ht : HashTable α) (p : Nat)
    (copyConstructor : α → α) : Option (Option (HashTable α)) :=
  match removed with
  | none => some none
  | some removed => do
      let (removed, entry) ← removed.insertRemoved ht p
      some (some (removed.construct copyConstructor entry))

/-- The loop that removes `count` elements from `p` on; the result is the table, the
table of removed elements, `pos` and the bucket behind them. -/
def spliceRemove (copyConstructor : α → α) :
    Nat → HashTable α → Option (HashTable α) → Nat → Option Nat →
      Option (HashTable α × Option (HashTable α) × Nat × Option Nat)
  | 0, ht, removed, pos, p => some (ht, removed, pos, p)
  | _ + 1, ht, removed, pos, none => some (ht, removed, pos, none)
  | count + 1, ht, removed, pos, some p => do
      let removed ← collectRemoved removed ht p copyConstructor
      spliceRemove copyConstructor count (ht.zendHashBucketDelete p) removed (pos + 1)
        (ht.pListNext p)

/-- `p ? p->pListLast : ht->pListTail`. -/
def lastBefore (ht : HashTable α) : Option Nat → Option Nat
  | some p => ht.pListLast p
  | none => ht.pListTail

/-- One step of the insertion loop: the new bucket goes in front of `p` in the list, and
into no chain. -/
def spliceInsert (copyConstructor : α → α) (p : Option Nat) (ht : HashTable α) (data : α) :
    HashTable α :=
  let q := ht.brk
  let ht := ht.newBucket 0 0 .null (copyConstructor data)
  (ht.connectToGlobalDllistEx q (ht.lastBefore p) p).countUp

/-- The insertion loop, in which an `int i` counts the list, and the resize after it. -/
def spliceList (ht : HashTable α) (copyConstructor : α → α) (p : Option Nat) :
    Option (List α) → Option (HashTable α)
  | some list => do
      let _ ← counted list.length
      (list.foldl (spliceInsert copyConstructor p) ht).ifFullDoResize
  | none => some ht

/-- `pos` is an `int` that only grows, so that its last value says whether it overflows. -/
def zendHashSplice (ht : HashTable α) (copyConstructor : α → α) (offset length : Nat)
    (list : Option (List α)) (removed : Option (HashTable α)) :
    Option (HashTable α × Option (HashTable α)) := do
  let ht := ht.checkInit
  let (pos, p) := ht.skipTo offset 0 ht.pListHead
  let (ht, removed, pos, p) ←
    spliceRemove copyConstructor (uint (offset + length) - pos) ht removed pos p
  let _ ← counted pos
  let ht ← ht.spliceList copyConstructor p list
  let ht ← ht.zendHashReindex true
  some (ht, removed)

end HashTable

end PhpRuntime.Hash
