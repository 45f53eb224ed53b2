import PhpRuntime.Foundation.Bytes
import Mathlib.Data.List.Nodup

/-! # Variables in shared memory

`ext/sysvshm/sysvshm.c`. Positions count from the head of a segment, which has 40 bytes; the numbers
in it are fields of their own, and the memory is what follows it.
-/

namespace PhpRuntime.Sysvshm

open Bytes Integers

/-- The values of a `long` -/
abbrev Long := { n : Int // -2 ^ 63 ≤ n ∧ n < 2 ^ 63 }

/-- `sysvshm_chunk_head`, with the memory behind it -/
structure ChunkHead where
  start : Int
  endPos : Int
  free : Int
  total : Int
  mem : Int → UInt8

def readLong (mem : Int → UInt8) (pos : Int) : Int := long (ofLittleEndian (slice mem pos 8))

def writeLong (mem : Int → UInt8) (pos n : Int) : Int → UInt8 :=
  write mem pos (littleEndian 8 (sizeT n))

/-- What `shm_attach` makes of a segment that is not initialized. -/
def shmAttach (shmSize : Long) (mem : Int → UInt8) : ChunkHead where
  start := 40
  endPos := 40
  free := shmSize - 40
  total := shmSize
  mem := mem

/-- The loop of `php_check_shm_data`; the fields of a `sysvshm_chunk` are `key`, `length` at 8,
`next` at 16 and `mem` at 24. -/
def checkLoop (ptr : ChunkHead) (key : Int) : Nat → Int → Option Int
  | 0, _ => none
  | fuel + 1, pos =>
      if pos ≥ ptr.endPos then
        some (-1)
      else if readLong ptr.mem pos = key then
        some pos
      else
        let next := readLong ptr.mem (pos + 16)
        if next ≤ 0 ∨ pos + next < ptr.start then some (-1) else checkLoop ptr key fuel (pos + next)

def phpCheckShmData (ptr : ChunkHead) (key : Int) : Option Int :=
  checkLoop ptr key ((ptr.endPos - ptr.start).toNat + 1) ptr.start

def phpRemoveShmData (ptr : ChunkHead) (shmVarpos : Int) : ChunkHead :=
  let next := readLong ptr.mem (shmVarpos + 16)
  let memcpyLen := ptr.endPos - shmVarpos - next
  { ptr with
    free := ptr.free + next
    endPos := ptr.endPos - next
    mem := if memcpyLen > 0 then move ptr.mem shmVarpos (shmVarpos + next) memcpyLen else ptr.mem }

/-- The bytes that a chunk takes, in whole words: `sizeof(sysvshm_chunk)` is 32. -/
def totalSize (len : Nat) : Int := ((len + 32 - 1) / 8 * 8 + 8 : Nat)

def phpPutShmData (ptr : ChunkHead) (key : Int) (data : List UInt8) :
    Option (ChunkHead × Int) := do
  let shmVarpos ← phpCheckShmData ptr key
  let ptr := if shmVarpos > 0 then phpRemoveShmData ptr shmVarpos else ptr
  if ptr.free < totalSize data.length then
    some (ptr, -1)
  else
    let mem := writeLong ptr.mem ptr.endPos key
    let mem := writeLong mem (ptr.endPos + 8) data.length
    let mem := writeLong mem (ptr.endPos + 16) (totalSize data.length)
    some ({ ptr with
      mem := write mem (ptr.endPos + 24) data
      endPos := ptr.endPos + totalSize data.length
      free := ptr.free - totalSize data.length }, 0)

/-- The bytes that `shm_get_var` hands on. -/
def shmGetVar (ptr : ChunkHead) (key : Int) : Option (Option (List UInt8)) := do
  let shmVarpos ← phpCheckShmData ptr key
  if shmVarpos < 0 then
    some none
  else
    some (some (slice ptr.mem (shmVarpos + 24) (readLong ptr.mem (shmVarpos + 8)).toNat))

/-- `shm_remove_var`; the code says whether there has been such a variable. -/
def shmRemoveVar (ptr : ChunkHead) (key : Int) : Option (ChunkHead × Int) := do
  let shmVarpos ← phpCheckShmData ptr key
  if shmVarpos < 0 then some (ptr, -1) else some (phpRemoveShmData ptr shmVarpos, 0)

inductive Op where
  | put (key : Long) (data : List UInt8)
  | remove (key : Long)

def call (ptr : ChunkHead) : Op → Option (ChunkHead × Int)
  | .put key data => phpPutShmData ptr key data
  | .remove key => shmRemoveVar ptr key

/-- The segment after a sequence of calls, and their codes. -/
def run (ptr : ChunkHead) : List Op → Option (ChunkHead × List Int)
  | [] => some (ptr, [])
  | op :: ops => do
      let (ptr, code) ← call ptr op
      let (ptr, codes) ← run ptr ops
      some (ptr, code :: codes)

/-! ## Chunks -/

structure Chunk where
  key : Long
  data : List UInt8

def Chunk.size (chunk : Chunk) : Int := totalSize chunk.data.length

/-- The fields of a chunk are in memory. -/
structure Holds (mem : Int → UInt8) (pos : Int) (chunk : Chunk) : Prop where
  key : readLong mem pos = chunk.key
  length : readLong mem (pos + 8) = chunk.data.length
  next : readLong mem (pos + 16) = chunk.size
  data : slice mem (pos + 24) chunk.data.length = chunk.data

/-- The chunks take the bytes between two positions, one behind the other. -/
def Tiles (mem : Int → UInt8) (pos : Int) : List Chunk → Int → Prop
  | [], stop => pos = stop
  | chunk :: chunks, stop => Holds mem pos chunk ∧ Tiles mem (pos + chunk.size) chunks stop

variable {mem mem' : Int → UInt8} {pos stop delta : Int} {chunk : Chunk}
  {chunks front back : List Chunk}

theorem le_size (chunk : Chunk) : chunk.data.length + 24 ≤ chunk.size := by
  rw [Chunk.size, totalSize]
  omega

theorem tiles_append : Tiles mem pos (front ++ back) stop ↔
    ∃ middle, Tiles mem pos front middle ∧ Tiles mem middle back stop := by
  induction front generalizing pos with
  | nil => simp [Tiles]
  | cons chunk front induction => simp [Tiles, induction, and_assoc]

theorem Tiles.le (tiles : Tiles mem pos chunks stop) : pos + chunks.length ≤ stop := by
  induction chunks generalizing pos with
  | nil => exact Int.le_of_eq ((Int.add_zero pos).trans tiles)
  | cons chunk chunks induction =>
      have rest := induction tiles.2
      have size := le_size chunk
      rw [List.length_cons]
      omega

/-- The bytes from one position to another are found elsewhere. -/
def Shifted (mem mem' : Int → UInt8) (pos stop delta : Int) : Prop :=
  ∀ p (n : Nat), pos ≤ p → p + n ≤ stop → slice mem' (p + delta) n = slice mem p n

theorem Holds.shifted (holds : Holds mem pos chunk)
    (same : Shifted mem mem' pos (pos + chunk.size) delta) : Holds mem' (pos + delta) chunk := by
  have size := le_size chunk
  have field {offset : Int} (first : 0 ≤ offset) (last : offset + 8 ≤ 24) :
      readLong mem' (pos + delta + offset) = readLong mem (pos + offset) := by
    rw [readLong, readLong, ← same (pos + offset) 8 (by omega) (by omega), Int.add_right_comm]
  have key := @field 0 (by omega) (by omega)
  rw [Int.add_zero, Int.add_zero] at key
  refine ⟨key.trans holds.key, (field (by omega) (by omega)).trans holds.length,
    (field (by omega) (by omega)).trans holds.next, ?_⟩
  rw [Int.add_right_comm, same (pos + 24) _ (by omega) (by omega), holds.data]

theorem Tiles.shifted (tiles : Tiles mem pos chunks stop)
    (same : Shifted mem mem' pos stop delta) :
    Tiles mem' (pos + delta) chunks (stop + delta) := by
  induction chunks generalizing pos with
  | nil => exact congrArg (· + delta) tiles
  | cons chunk chunks induction =>
      have last := tiles.2.le
      have size := le_size chunk
      have rest := induction tiles.2 fun p n first inside => same p n (by omega) inside
      rw [Int.add_right_comm] at rest
      exact ⟨tiles.1.shifted fun p n first inside => same p n first (by omega), rest⟩

theorem Tiles.kept (tiles : Tiles mem pos chunks stop)
    (same : ∀ p (n : Nat), p + n ≤ stop → slice mem' p n = slice mem p n) :
    Tiles mem' pos chunks stop := by
  have still : Shifted mem mem' pos stop 0 := by
    intro p n _ inside
    rw [Int.add_zero, same p n inside]
  have shifted := tiles.shifted still
  rwa [Int.add_zero, Int.add_zero] at shifted

/-! ## Numbers in memory -/

theorem readLong_writeLong (mem : Int → UInt8) (pos : Int) (n : Long) :
    readLong (writeLong mem pos n) pos = n := by
  have width := length_littleEndian 8 (sizeT n)
  have read := slice_write mem pos (littleEndian 8 (sizeT n))
  have small : sizeT n < 256 ^ 8 := by
    rw [sizeT]
    omega
  rw [width] at read
  rw [readLong, writeLong, read, ofLittleEndian_littleEndian small]
  have range := n.2
  rw [long, sizeT, Int.bmod_def]
  omega

theorem readLong_writeLong_other {q : Int} {n : Int} (apart : q + 8 ≤ pos ∨ pos + 8 ≤ q) :
    readLong (writeLong mem pos n) q = readLong mem q := by
  rw [readLong, readLong, writeLong, slice_write_other]
  rwa [length_littleEndian]

/-! ## Segments -/

/-- The chunks of a segment have different keys, and the other bytes are free. -/
structure Inv (ptr : ChunkHead) (chunks : List Chunk) : Prop where
  start : ptr.start = 40
  tiles : Tiles ptr.mem ptr.start chunks ptr.endPos
  nodup : (chunks.map Chunk.key).Nodup
  total : ptr.free + ptr.endPos = ptr.total
  room : chunks ≠ [] → 0 ≤ ptr.free
  size : ptr.total < 2 ^ 63

variable {ptr : ChunkHead} {key : Long}

theorem Inv.others (inv : Inv ptr (front ++ chunk :: back)) :
    ∀ other ∈ front ++ back, other.key ≠ chunk.key := by
  intro other member same
  have nodup := inv.nodup
  rw [List.map_append, List.map_cons, List.nodup_middle, List.nodup_cons, ← List.map_append]
    at nodup
  exact nodup.1 (same ▸ List.mem_map_of_mem member)

theorem checkLoop_skips {middle : Int} {fuel : Nat} (tiles : Tiles ptr.mem pos front middle)
    (inside : middle ≤ ptr.endPos) (behind : ptr.start ≤ pos)
    (others : ∀ other ∈ front, other.key ≠ key) :
    checkLoop ptr key (front.length + fuel) pos = checkLoop ptr key fuel middle := by
  induction front generalizing pos with
  | nil => rw [List.length_nil, Nat.zero_add, show pos = middle from tiles]
  | cons chunk front induction =>
      have size := le_size chunk
      have last := tiles.2.le
      have different : (chunk.key : Int) ≠ key := fun same =>
        others chunk List.mem_cons_self (Subtype.ext same)
      rw [List.length_cons, Nat.add_right_comm, checkLoop, if_neg (by omega), tiles.1.key,
        if_neg different, tiles.1.next, if_neg (by omega)]
      exact induction tiles.2 (by omega) fun other member => others other (.tail _ member)

theorem phpCheckShmData_absent (inv : Inv ptr chunks) (absent : ∀ other ∈ chunks, other.key ≠ key) :
    phpCheckShmData ptr key = some (-1) := by
  have last := inv.tiles.le
  obtain ⟨more, isFuel⟩ : ∃ more, (ptr.endPos - ptr.start).toNat + 1 = chunks.length + (more + 1) :=
    ⟨(ptr.endPos - ptr.start).toNat - chunks.length, by omega⟩
  rw [phpCheckShmData, isFuel, checkLoop_skips inv.tiles le_rfl le_rfl absent, checkLoop,
    if_pos le_rfl]

theorem phpCheckShmData_found (inv : Inv ptr (front ++ chunk :: back)) {middle : Int}
    (isMiddle : Tiles ptr.mem ptr.start front middle)
    (rest : Tiles ptr.mem middle (chunk :: back) ptr.endPos) :
    phpCheckShmData ptr chunk.key = some middle := by
  have others : ∀ other ∈ front, other.key ≠ chunk.key := fun other member =>
    inv.others other (List.mem_append_left _ member)
  have first := isMiddle.le
  have size := le_size chunk
  have last := rest.2.le
  obtain ⟨more, isFuel⟩ : ∃ more, (ptr.endPos - ptr.start).toNat + 1 = front.length + (more + 1) :=
    ⟨(ptr.endPos - ptr.start).toNat - front.length, by omega⟩
  rw [phpCheckShmData, isFuel, checkLoop_skips isMiddle (by omega) le_rfl others, checkLoop,
    if_neg (by omega), if_pos rest.1.key]

/-- The chunks behind the one that is removed move to its place. -/
theorem phpRemoveShmData_inv (inv : Inv ptr (front ++ chunk :: back)) {middle : Int}
    (isMiddle : Tiles ptr.mem ptr.start front middle)
    (rest : Tiles ptr.mem middle (chunk :: back) ptr.endPos) :
    Inv (phpRemoveShmData ptr middle) (front ++ back) := by
  have size := le_size chunk
  have last := rest.2.le
  have total := inv.total
  rw [phpRemoveShmData, rest.1.next]
  have room := inv.room (List.append_ne_nil_of_right_ne_nil _ (List.cons_ne_nil _ _))
  refine ⟨inv.start, tiles_append.mpr ⟨middle, isMiddle.kept fun p n inside => ?_, ?_⟩, ?_, ?_,
    fun _ => ?_, inv.size⟩
  · dsimp only
    split
    · exact slice_move_other inside
    · rfl
  · have moved : Shifted ptr.mem (if ptr.endPos - middle - chunk.size > 0 then
        move ptr.mem middle (middle + chunk.size) (ptr.endPos - middle - chunk.size) else ptr.mem)
        (middle + chunk.size) ptr.endPos (-chunk.size) := by
      intro p n first inside
      split
      · rw [slice_move (by omega) (by omega)]
        congr 1
        omega
      · obtain rfl : n = 0 := by omega
        rfl
    have tiles := rest.2.shifted moved
    rwa [Int.add_neg_cancel_right] at tiles
  · have sublist : (front ++ back).Sublist (front ++ chunk :: back) :=
      .append_left (List.sublist_cons_self _ _) _
    exact inv.nodup.sublist (sublist.map Chunk.key)
  · dsimp only
    omega
  · dsimp only
    omega

/-- A chunk is put behind the others. -/
theorem append_inv (inv : Inv ptr chunks) (absent : ∀ other ∈ chunks, other.key ≠ key)
    {data : List UInt8} (room : ¬ptr.free < totalSize data.length) :
    Inv
      { ptr with
        mem := write (writeLong (writeLong (writeLong ptr.mem ptr.endPos key) (ptr.endPos + 8)
          data.length) (ptr.endPos + 16) (totalSize data.length)) (ptr.endPos + 24) data
        endPos := ptr.endPos + totalSize data.length
        free := ptr.free - totalSize data.length }
      (chunks ++ [⟨key, data⟩]) := by
  have size := le_size ⟨key, data⟩
  rw [Chunk.size] at size
  dsimp only at size
  have last := inv.tiles.le
  have start := inv.start
  have total := inv.total
  have small := inv.size
  have readLong_write {mem : Int → UInt8} {q : Int} (before : q + 8 ≤ ptr.endPos + 24) :
      readLong (write mem (ptr.endPos + 24) data) q = readLong mem q := by
    rw [readLong, readLong, slice_write_other (.inl (by exact_mod_cast before))]
  refine ⟨start, tiles_append.mpr ⟨ptr.endPos, inv.tiles.kept fun p n inside => ?_,
    ⟨?_, ?_, ?_, ?_⟩, rfl⟩, ?_, ?_, fun _ => ?_, inv.size⟩
  · dsimp only [writeLong]
    rw [slice_write_other (.inl (by omega)), slice_write_other (.inl (by omega)),
      slice_write_other (.inl (by omega)), slice_write_other (.inl inside)]
  · dsimp only
    rw [readLong_write (by omega), readLong_writeLong_other (.inl (by omega)),
      readLong_writeLong_other (.inl (by omega)), readLong_writeLong]
  · dsimp only
    rw [readLong_write (by omega), readLong_writeLong_other (.inl (by omega))]
    exact readLong_writeLong _ _ ⟨data.length, by omega, by omega⟩
  · dsimp only
    rw [readLong_write (by omega)]
    exact readLong_writeLong _ _ ⟨totalSize data.length, by omega, by omega⟩
  · exact slice_write _ _ data
  · rw [List.map_append, List.map_singleton, ← List.concat_eq_append]
    refine inv.nodup.concat fun member => ?_
    obtain ⟨other, inside, same⟩ := List.mem_map.mp member
    exact absent other inside same
  · dsimp only
    omega
  · dsimp only
    omega

/-! ## Bindings -/

/-- The bytes that are stored under a key. -/
def stored (chunks : List Chunk) (key : Long) : Option (List UInt8) :=
  (chunks.find? fun chunk => chunk.key = key).map Chunk.data

theorem stored_absent (absent : ∀ other ∈ chunks, other.key ≠ key) : stored chunks key = none := by
  rw [stored, List.find?_eq_none.mpr fun other member => by simpa using absent other member]
  rfl

theorem stored_append (absent : ∀ other ∈ chunks, other.key ≠ key) (data : List UInt8) :
    stored (chunks ++ [⟨key, data⟩]) = Function.update (stored chunks) key (some data) := by
  funext k
  by_cases same : k = key
  · subst same
    have none := stored_absent absent
    rw [stored, Option.map_eq_none_iff] at none
    simp [stored, none]
  · have other : ¬key = k := fun equal => same equal.symm
    simp [stored, Function.update_of_ne same, other]

theorem stored_remove (inv : Inv ptr (front ++ chunk :: back)) :
    stored (front ++ back)
      = Function.update (stored (front ++ chunk :: back)) chunk.key none := by
  funext k
  by_cases same : k = chunk.key
  · rw [same, Function.update_self]
    exact stored_absent inv.others
  · have other : ¬chunk.key = k := fun equal => same equal.symm
    simp [stored, Function.update_of_ne same, other]

theorem stored_found (inv : Inv ptr (front ++ chunk :: back)) :
    stored (front ++ chunk :: back) chunk.key = some chunk.data := by
  have none : stored front chunk.key = none := stored_absent fun other member =>
    inv.others other (List.mem_append_left _ member)
  rw [stored, Option.map_eq_none_iff] at none
  simp [stored, none]

/-- A key has no chunk, or its chunk is at some position. -/
theorem Inv.cases (inv : Inv ptr chunks) (key : Long) :
    (∀ other ∈ chunks, other.key ≠ key)
    ∨ ∃ front data back middle, chunks = front ++ ⟨key, data⟩ :: back
      ∧ Tiles ptr.mem ptr.start front middle
      ∧ Tiles ptr.mem middle (⟨key, data⟩ :: back) ptr.endPos := by
  by_cases bound : ∃ chunk ∈ chunks, chunk.key = key
  · obtain ⟨⟨key', data⟩, member, rfl⟩ := bound
    obtain ⟨front, back, rfl⟩ := List.append_of_mem member
    obtain ⟨middle, isMiddle, rest⟩ := tiles_append.mp inv.tiles
    exact .inr ⟨front, data, back, middle, rfl, isMiddle, rest⟩
  · exact .inl fun other member same => bound ⟨other, member, same⟩

theorem shmGetVar_eq (inv : Inv ptr chunks) (key : Long) :
    shmGetVar ptr key = some (stored chunks key) := by
  rcases inv.cases key with absent | ⟨front, data, back, middle, rfl, isMiddle, rest⟩
  · rw [shmGetVar, phpCheckShmData_absent inv absent, stored_absent absent]
    rfl
  · have found := phpCheckShmData_found inv isMiddle rest
    have first := isMiddle.le
    have start := inv.start
    have isStored : stored (front ++ ⟨key, data⟩ :: back) key = some data := stored_found inv
    rw [shmGetVar, found, Option.bind_eq_bind, Option.bind_some, if_neg (by omega),
      rest.1.length, Int.toNat_natCast, rest.1.data, isStored]

/-- Of the bindings, a failed put should change none. -/
def effect (bindings : Long → Option (List UInt8)) (call : Op × Int) :
    Long → Option (List UInt8) :=
  match call with
  | (.put key data, code) =>
      if code = 0 then Function.update bindings key (some data) else bindings
  | (.remove key, _) => Function.update bindings key none

/-- A put that fails is for a key that has no binding. -/
def spared (ptr : ChunkHead) (op : Op) (code : Int) : Bool :=
  match op with
  | .put key _ => code == 0 || shmGetVar ptr key == some none
  | .remove _ => true

/-- None of the puts that fail is for a key that has a binding. -/
def spares (ptr : ChunkHead) : List Op → Bool
  | [] => true
  | op :: ops =>
      match call ptr op with
      | none => true
      | some (next, code) => spared ptr op code && spares next ops

/-- What `php_put_shm_data` does first and `shm_remove_var` as well: the key has no chunk any
more. -/
theorem cleared (inv : Inv ptr chunks) (key : Long) :
    ∃ shmVarpos chunks', phpCheckShmData ptr key = some shmVarpos ∧ shmVarpos ≠ 0
      ∧ Inv (if shmVarpos > 0 then phpRemoveShmData ptr shmVarpos else ptr) chunks'
      ∧ (∀ other ∈ chunks', other.key ≠ key)
      ∧ stored chunks' = Function.update (stored chunks) key none := by
  rcases inv.cases key with absent | ⟨front, data, back, middle, rfl, isMiddle, rest⟩
  · refine ⟨-1, chunks, phpCheckShmData_absent inv absent, by decide, inv, absent, ?_⟩
    rw [Function.update_eq_self_iff.mpr (stored_absent absent).symm]
  · have first := isMiddle.le
    have start := inv.start
    refine ⟨middle, front ++ back, phpCheckShmData_found inv isMiddle rest, by omega, ?_,
      inv.others, stored_remove inv⟩
    rw [if_pos (by omega)]
    exact phpRemoveShmData_inv inv isMiddle rest

theorem put_spec (inv : Inv ptr chunks) (key : Long) (data : List UInt8) :
    ∃ ptr' code chunks', phpPutShmData ptr key data = some (ptr', code) ∧ Inv ptr' chunks'
      ∧ (spared ptr (.put key data) code = true →
        stored chunks' = effect (stored chunks) (.put key data, code)) := by
  obtain ⟨shmVarpos, chunks', isPos, -, inv', absent, isStored⟩ := cleared inv key
  rw [phpPutShmData, isPos, Option.bind_eq_bind, Option.bind_some]
  generalize (if shmVarpos > 0 then phpRemoveShmData ptr shmVarpos else ptr) = ptr' at inv' ⊢
  dsimp only
  split
  · refine ⟨_, _, chunks', rfl, inv', fun unbound => ?_⟩
    rw [spared, shmGetVar_eq inv] at unbound
    have none : stored chunks key = none := by simpa using unbound
    rw [isStored, effect, if_neg (by decide), Function.update_eq_self_iff.mpr none.symm]
  · rename_i room
    refine ⟨_, _, _, rfl, append_inv inv' absent room, fun _ => ?_⟩
    rw [stored_append absent, isStored, effect, if_pos rfl, Function.update_idem]

theorem remove_spec (inv : Inv ptr chunks) (key : Long) :
    ∃ ptr' code chunks', shmRemoveVar ptr key = some (ptr', code) ∧ Inv ptr' chunks'
      ∧ stored chunks' = Function.update (stored chunks) key none := by
  obtain ⟨shmVarpos, chunks', isPos, nonzero, inv', -, isStored⟩ := cleared inv key
  rw [shmRemoveVar, isPos, Option.bind_eq_bind, Option.bind_some]
  by_cases absent : shmVarpos < 0
  · rw [if_neg (by omega)] at inv'
    exact ⟨ptr, -1, chunks', if_pos absent, inv', isStored⟩
  · rw [if_pos (by omega)] at inv'
    exact ⟨_, 0, chunks', if_neg absent, inv', isStored⟩

theorem call_spec (inv : Inv ptr chunks) (op : Op) :
    ∃ ptr' code chunks', call ptr op = some (ptr', code) ∧ Inv ptr' chunks'
      ∧ (spared ptr op code = true → stored chunks' = effect (stored chunks) (op, code)) := by
  cases op with
  | put key data => exact put_spec inv key data
  | remove key =>
      obtain ⟨ptr', code, chunks', removed, inv', isStored⟩ := remove_spec inv key
      exact ⟨ptr', code, chunks', removed, inv', fun _ => isStored⟩

theorem run_spec (inv : Inv ptr chunks) (ops : List Op) :
    ∃ ptr' codes chunks', run ptr ops = some (ptr', codes) ∧ Inv ptr' chunks'
      ∧ (spares ptr ops = true →
        stored chunks' = (ops.zip codes).foldl effect (stored chunks)) := by
  induction ops generalizing ptr chunks with
  | nil => exact ⟨ptr, [], chunks, rfl, inv, fun _ => rfl⟩
  | cons op ops induction =>
      obtain ⟨next, code, middle, called, nextInv, isEffect⟩ := call_spec inv op
      obtain ⟨ptr', codes, chunks', runs, inv', isStored⟩ := induction nextInv
      refine ⟨ptr', code :: codes, chunks', ?_, inv', fun spare => ?_⟩
      · rw [run, called, Option.bind_eq_bind, Option.bind_some]
        dsimp only
        rw [runs]
        rfl
      · rw [spares, called, Bool.and_eq_true] at spare
        rw [isStored spare.2, isEffect spare.1]
        rfl

/-- Variables in shared memory form a map: the chunks are one behind the other, and lookups return
what has been stored last; for this, no put that fails may be for a key that has a binding. -/
theorem sysvshm_is_map (shmSize : Long) (mem : Int → UInt8) (ops : List Op) :
    ∃ ptr codes, run (shmAttach shmSize mem) ops = some (ptr, codes)
      ∧ (∃ chunks, Tiles ptr.mem ptr.start chunks ptr.endPos
        ∧ (chunks ≠ [] → ptr.endPos ≤ ptr.total))
      ∧ ptr.free + ptr.endPos = ptr.total
      ∧ (spares (shmAttach shmSize mem) ops = true → ∀ key : Long,
        shmGetVar ptr key = some ((ops.zip codes).foldl effect (fun _ => none) key)) := by
  have start : Inv (shmAttach shmSize mem) [] :=
    ⟨rfl, rfl, List.nodup_nil, Int.sub_add_cancel _ _, fun none => absurd rfl none, shmSize.2.2⟩
  obtain ⟨ptr, codes, chunks, runs, inv, isStored⟩ := run_spec start ops
  refine ⟨ptr, codes, runs, ⟨chunks, inv.tiles, fun some_ => ?_⟩, inv.total,
    fun spare key => ?_⟩
  · have room := inv.room some_
    have total := inv.total
    omega
  · rw [shmGetVar_eq inv, isStored spare]
    rfl

/-- A put for another key does not fit. -/
theorem sysvshm_is_map_full :
    let ops := [.put ⟨1, by decide⟩ [5], .put ⟨1, by decide⟩ [6, 7],
      .put ⟨2, by decide⟩ (List.replicate 99 0)]
    spares (shmAttach ⟨100, by decide⟩ fun _ => 0) ops = true
    ∧ ∃ ptr codes, run (shmAttach ⟨100, by decide⟩ fun _ => 0) ops = some (ptr, codes)
      ∧ shmGetVar ptr (1 : Int)
        = some ((ops.zip codes).foldl effect (fun _ => none) ⟨1, by decide⟩) := by
  intro ops
  have spare : spares (shmAttach ⟨100, by decide⟩ fun _ => 0) ops = true := by decide
  obtain ⟨ptr, codes, runs, -, -, lookups⟩ := sysvshm_is_map ⟨100, by decide⟩ (fun _ => 0) ops
  exact ⟨spare, ptr, codes, runs, lookups spare ⟨1, by decide⟩⟩

/-- A put that fails takes the binding of its key away. -/
theorem put_loses_binding :
    ((run (shmAttach ⟨100, by decide⟩ fun _ => 0) [.put ⟨1, by decide⟩ [5]]).bind fun (ptr, _) =>
      shmGetVar ptr 1) = some (some [5])
    ∧ ((run (shmAttach ⟨100, by decide⟩ fun _ => 0)
        [.put ⟨1, by decide⟩ [5], .put ⟨1, by decide⟩ (List.replicate 99 0)]).bind
      fun (ptr, codes) => (shmGetVar ptr 1).map fun found => (codes, found))
      = some ([0, -1], none) := by
  decide

end PhpRuntime.Sysvshm
