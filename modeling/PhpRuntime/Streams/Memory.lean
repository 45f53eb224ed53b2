import PhpRuntime.Foundation.Integers
import PhpRuntime.Streams.Buffer

/-! # Seeking in a memory stream

`php_stream_memory_write`, `_read` and `_seek` of `main/streams/memory.c` under `_php_stream_read`,
`_php_stream_write` and `_php_stream_seek` of `main/streams/streams.c`. The wrapper is not the one
of plain files, and there are no filters. An allocation does not fail.
-/

namespace PhpRuntime.Streams

open Integers

/-- `php_stream` and its `php_stream_memory_data` -/
structure MemoryStream extends ReadBuffer where
  /-- `PHP_STREAM_FLAG_NO_BUFFER` -/
  noBuffer : Bool
  position : Int
  eof : Bool
  /-- `fsize` bytes -/
  data : List UInt8
  fpos : Nat
  /-- `TEMP_STREAM_READONLY` -/
  readonly : Bool

inductive Whence
  | set
  | cur
  | fromEnd
  /-- Another number. -/
  | other
  deriving DecidableEq

namespace MemoryStream

variable {s t : MemoryStream}

def fsize (s : MemoryStream) : Nat := s.data.length

/-! ## The memory -/

def memoryRead (s : MemoryStream) (count : Nat) : List UInt8 × MemoryStream :=
  if s.fpos = s.fsize then
    ([], { s with eof := true })
  else
    let given := (s.data.drop s.fpos).take count
    (given, { s with fpos := s.fpos + given.length })

/-- The number of bytes that are written, and the stream. -/
def memoryWrite (s : MemoryStream) (bytes : List UInt8) : Nat × MemoryStream :=
  if s.readonly then
    (0, s)
  else
    (bytes.length, { s with
      data := s.data.take s.fpos ++ (bytes ++ s.data.drop (s.fpos + bytes.length))
      fpos := s.fpos + bytes.length })

/-- The cursor at an end of the data, and -1. -/
def fails (s : MemoryStream) (fpos : Nat) : Int × MemoryStream :=
  (-1, { s with fpos := fpos, position := -1 })

def moves (s : MemoryStream) (fpos : Nat) : Int × MemoryStream :=
  (0, { s with fpos := fpos, position := fpos, eof := false })

/-- `php_stream_memory_seek`, with `newoffs` the position of the stream -/
def memorySeek (s : MemoryStream) (offset : Int) (whence : Whence) : Int × MemoryStream :=
  match whence with
  | .cur =>
      if offset < 0 then
        if s.fpos < sizeT (-offset) then s.fails 0 else s.moves (s.fpos - sizeT (-offset))
      else
        if s.fsize < s.fpos + sizeT offset then s.fails s.fsize
        else s.moves (s.fpos + sizeT offset)
  | .set => if s.fsize < sizeT offset then s.fails s.fsize else s.moves (sizeT offset)
  | .fromEnd =>
      if 0 < offset then s.fails s.fsize
      else if s.fsize < sizeT (-offset) then s.fails 0
      else s.moves (s.fsize - sizeT (-offset))
  | .other => (-1, { s with position := s.fpos })

/-! ## The stream -/

/-- Takes from the read buffer. -/
def take (s : MemoryStream) (n : Nat) : List UInt8 × MemoryStream :=
  (s.window.take n, { s with toReadBuffer := s.consume (min s.buffered n) })

/-- `_php_stream_fill_read_buffer` -/
def fill (s : MemoryStream) (size : Nat) : MemoryStream :=
  if s.buffered < size then
    let buffer := s.reduce.grow s.chunkSize
    let given := s.memoryRead buffer.room
    { given.2 with toReadBuffer := buffer.receive given.1 }
  else
    s

/-- The excess: raw, or through the buffer. -/
def fetch (s : MemoryStream) (size : Nat) : List UInt8 × MemoryStream :=
  if size = 0 then ([], s)
  else if s.noBuffer || s.chunkSize == 1 then s.memoryRead size
  else (s.fill size).take size

/-- `stream->position += n` -/
def count (s : MemoryStream) (n : Nat) : MemoryStream := { s with position := s.position + n }

/-- `_php_stream_read`: the window, and one more read if that is too little -/
def read (s : MemoryStream) (size : Nat) : List UInt8 × MemoryStream :=
  let first := s.take size
  let second := first.2.fetch (size - first.1.length)
  (first.1 ++ second.1, second.2.count (first.1 ++ second.1).length)

/-- `while (count > 0)` of `_php_stream_write_buffer`; each round but the last takes a byte or
more. -/
def writeLoop : Nat → MemoryStream → List UInt8 → MemoryStream
  | 0, s, _ => s
  | fuel + 1, s, bytes =>
      if bytes = [] then
        s
      else
        let written := s.memoryWrite (bytes.take s.chunkSize)
        if 0 < int written.1 then
          writeLoop fuel (written.2.count written.1) (bytes.drop written.1)
        else
          written.2

/-- `_php_stream_write` -/
def write (s : MemoryStream) (bytes : List UInt8) : MemoryStream :=
  if bytes = [] then
    s
  else
    let s := if s.readpos = s.writepos then s
      else (memorySeek { s with toReadBuffer := s.invalidate } s.position .set).2
    s.writeLoop bytes.length bytes

/-- The seek is inside the window. -/
def skip (s : MemoryStream) (n : Int) : Int × MemoryStream :=
  (0, { s with
    toReadBuffer := s.consume n.toNat
    position := s.position + n
    eof := false })

/-- `ops->seek` and the buffer behind it. -/
def lowSeek (s : MemoryStream) (offset : Int) (whence : Whence) : Int × MemoryStream :=
  let (ret, s) := s.memorySeek offset whence
  (ret, { s with toReadBuffer := s.invalidate })

/-- `_php_stream_seek` -/
def seek (s : MemoryStream) (offset : Int) (whence : Whence) : Int × MemoryStream :=
  match whence with
  | .cur =>
      if !s.noBuffer ∧ 0 < offset ∧ offset ≤ s.buffered then s.skip offset
      else s.lowSeek (long (s.position + offset)) .set
  | .set =>
      if !s.noBuffer ∧ s.position < offset ∧ offset ≤ s.position + s.buffered then
        s.skip (offset - s.position)
      else s.lowSeek offset .set
  | whence => s.lowSeek offset whence

/-- `php_stream_tell` -/
def tell (s : MemoryStream) : Int := s.position

inductive Call
  | read (size : Nat)
  | write (bytes : List UInt8)
  | seek (offset : Int) (whence : Whence)

def call (s : MemoryStream) : Call → MemoryStream
  | .read size => (s.read size).2
  | .write bytes => s.write bytes
  | .seek offset whence => (s.seek offset whence).2

/-- A memory stream on some data. -/
def opened (data : List UInt8) (readonly noBuffer : Bool) (chunkSize : Nat) : MemoryStream :=
  { readbuf := [], readpos := 0, writepos := 0, chunkSize, noBuffer, position := 0, eof := false,
    data, fpos := 0, readonly }

/-! ## What reads return -/

/-- The bytes that reads return from now on. -/
def ahead (s : MemoryStream) : List UInt8 := s.window ++ s.data.drop s.fpos

/-- The window is the part of the data from `start` to the cursor. -/
structure Window (s : MemoryStream) (start : Nat) : Prop extends s.toReadBuffer.Valid where
  inside : s.fpos ≤ s.fsize
  starts : start ≤ s.fpos
  isWindow : s.window = (s.data.take s.fpos).drop start

/-- The buffer agrees with the data. -/
def Sound (s : MemoryStream) : Prop := ∃ start, s.Window start

section Windows

variable {start : Nat}

theorem Window.of_empty (inside : s.fpos ≤ s.fsize) (valid : s.toReadBuffer.Valid)
    (empty : s.window = []) : s.Window s.fpos := by
  refine ⟨valid, inside, Nat.le_refl _, ?_⟩
  rw [empty, List.drop_eq_nil_of_le (List.length_take_le _ _)]

theorem Window.length_take (within : s.Window start) : (s.data.take s.fpos).length = s.fpos :=
  List.length_take_of_le within.inside

theorem Window.length (within : s.Window start) : s.window.length = s.fpos - start := by
  rw [within.isWindow, List.length_drop, within.length_take]

theorem Window.ahead (within : s.Window start) : s.ahead = s.data.drop start := by
  have cut : start ≤ (s.data.take s.fpos).length := by
    rw [within.length_take]
    exact within.starts
  rw [MemoryStream.ahead, within.isWindow, ← List.drop_append_of_le_length cut,
    List.take_append_drop]

theorem Window.length_ahead (within : s.Window start) : s.ahead.length = s.fsize - start := by
  rw [within.ahead, List.length_drop, fsize]

/-- The window without its first bytes. -/
theorem Window.consume (within : s.Window start) {n : Nat} (fits : n ≤ s.buffered)
    (isBuffer : t.toReadBuffer = s.consume n) (isData : t.data = s.data)
    (isFpos : t.fpos = s.fpos) : t.Window (start + n) := by
  have length := within.length
  have order := within.starts
  rw [within.window_length] at length
  refine ⟨isBuffer ▸ within.toValid.consume fits, ?_, by omega, ?_⟩
  · rw [isFpos, fsize, isData]
    exact within.inside
  · rw [isBuffer, ReadBuffer.window_consume, within.isWindow, List.drop_drop, isData, isFpos]

theorem Window.take (within : s.Window start) (n : Nat) :
    (s.take n).2.Window (start + (s.take n).1.length) ∧
      (s.take n).1 ++ (s.take n).2.ahead = s.ahead := by
  have taken : (s.take n).1.length = min s.buffered n := by
    rw [MemoryStream.take, List.length_take, within.window_length, Nat.min_comm]
  constructor
  · rw [taken]
    exact within.consume (Nat.min_le_left _ _) rfl rfl rfl
  · change s.window.take n ++ ((s.consume (min s.buffered n)).window ++ _) = s.window ++ _
    rw [ReadBuffer.window_consume, ← within.window_length, Nat.min_comm, ← List.drop_eq_drop_min,
      ← List.append_assoc, List.take_append_drop]
    rfl

theorem memoryRead_eq (s : MemoryStream) (count : Nat) :
    (s.memoryRead count).1 = (s.data.drop s.fpos).take count ∧
      (s.memoryRead count).2.fpos = s.fpos + (s.memoryRead count).1.length ∧
      (s.memoryRead count).2.data = s.data ∧
      (s.memoryRead count).2.toReadBuffer = s.toReadBuffer := by
  rw [memoryRead]
  split_ifs with atEnd
  · refine ⟨?_, rfl, rfl, rfl⟩
    rw [atEnd, fsize, List.drop_length, List.take_nil]
  · exact ⟨rfl, rfl, rfl, rfl⟩

/-- What is read from the memory into the buffer is the data from the cursor on. -/
theorem Window.memoryRead (within : s.Window start) (count : Nat)
    (valid : t.toReadBuffer.Valid) (isWindow : t.window = s.window ++ (s.memoryRead count).1)
    (isData : t.data = (s.memoryRead count).2.data)
    (isFpos : t.fpos = (s.memoryRead count).2.fpos) : t.Window start := by
  have given := memoryRead_eq s count
  have inside := within.inside
  have order := within.starts
  rw [given.1] at isWindow
  rw [given.2.2.1] at isData
  rw [given.2.1, given.1, List.length_take, List.length_drop] at isFpos
  rw [fsize] at inside
  refine ⟨valid, ?_, by omega, ?_⟩
  · rw [isFpos, fsize, isData]
    omega
  · have cut : start ≤ (s.data.take s.fpos).length := by
      rw [within.length_take]
      exact order
    have grown : s.data.take t.fpos = s.data.take s.fpos ++ (s.data.drop s.fpos).take count := by
      rw [isFpos, List.take_add, ← List.length_drop, ← List.take_eq_take_min]
    rw [isWindow, isData, grown, List.drop_append_of_le_length cut, within.isWindow]

theorem Window.fill (within : s.Window start) (size : Nat) :
    (s.fill size).Window start ∧ (s.fill size).data = s.data := by
  rw [MemoryStream.fill]
  split
  · rcases within.refill with ⟨valid, same, _⟩
    have received := @ReadBuffer.Valid.receive _
      (s.memoryRead (s.reduce.grow s.chunkSize).room).1 valid
    rw [same] at received
    exact ⟨within.memoryRead _ received.1 received.2 rfl rfl, (memoryRead_eq _ _).2.2.1⟩
  · exact ⟨within, rfl⟩

theorem Window.fetch (within : s.Window start) {size : Nat} (empty : size ≠ 0 → s.window = []) :
    (s.fetch size).2.Sound ∧ (s.fetch size).1 ++ (s.fetch size).2.ahead = s.ahead := by
  rw [MemoryStream.fetch]
  split_ifs with nothing
  · exact ⟨⟨_, within⟩, rfl⟩
  · have given := memoryRead_eq s size
    have inside := within.inside
    have received : (s.memoryRead size).2.Window (s.memoryRead size).2.fpos := by
      apply Window.of_empty
      · rw [given.2.1, given.1, List.length_take, List.length_drop, fsize, given.2.2.1]
        rw [fsize] at inside
        omega
      · exact given.2.2.2 ▸ within.toValid
      · rw [given.2.2.2, empty nothing]
    refine ⟨⟨_, received⟩, ?_⟩
    rw [received.ahead, (Window.of_empty inside within.toValid (empty nothing)).ahead, given.2.1,
      given.2.2.1, ← List.drop_drop, given.1, List.length_take, ← List.drop_eq_drop_min,
      List.take_append_drop]
  · rcases within.fill size with ⟨filled, isData⟩
    have taken := filled.take size
    exact ⟨⟨_, taken.1⟩, by rw [taken.2, filled.ahead, isData, within.ahead]⟩

/-- What a read returns is what is ahead, and the rest of it stays ahead. -/
theorem Sound.read (sound : s.Sound) (size : Nat) :
    (s.read size).2.Sound ∧ (s.read size).1 ++ (s.read size).2.ahead = s.ahead := by
  rcases sound with ⟨start, within⟩
  rcases within.take size with ⟨taken, isAhead⟩
  have empty (more : size - (s.take size).1.length ≠ 0) : (s.take size).2.window = [] := by
    rw [MemoryStream.take, List.length_take, within.window_length] at more
    change (s.consume (min s.buffered size)).window = []
    rw [ReadBuffer.window_consume]
    apply List.drop_eq_nil_of_le
    rw [within.window_length]
    omega
  rcases taken.fetch empty with ⟨⟨next, fetched⟩, rest⟩
  refine ⟨⟨next, { fetched with }⟩, ?_⟩
  rw [← isAhead, ← rest, ← List.append_assoc]
  rfl

end Windows

/-! ## Seeking and writing -/

theorem Sound.of_empty (inside : s.fpos ≤ s.fsize) (valid : s.toReadBuffer.Valid)
    (empty : s.window = []) : s.Sound :=
  ⟨_, Window.of_empty inside valid empty⟩

/-- The cursor stays inside the data, and the buffer as it is. -/
structure Placed (s t : MemoryStream) : Prop where
  inside : t.fpos ≤ t.fsize
  sameData : t.data = s.data
  sameBuffer : t.toReadBuffer = s.toReadBuffer

theorem placed_fails {fpos : Nat} (inside : fpos ≤ s.fsize) : Placed s (s.fails fpos).2 :=
  ⟨inside, rfl, rfl⟩

theorem placed_moves {fpos : Nat} (inside : fpos ≤ s.fsize) : Placed s (s.moves fpos).2 :=
  ⟨inside, rfl, rfl⟩

theorem placed_memorySeek (inside : s.fpos ≤ s.fsize) (offset : Int) (whence : Whence) :
    Placed s (s.memorySeek offset whence).2 := by
  cases whence with
  | cur =>
      rw [memorySeek]
      split_ifs
      · exact placed_fails (Nat.zero_le _)
      · exact placed_moves (by omega)
      · exact placed_fails (Nat.le_refl _)
      · exact placed_moves (by omega)
  | set =>
      rw [memorySeek]
      split_ifs
      · exact placed_fails (Nat.le_refl _)
      · exact placed_moves (by omega)
  | fromEnd =>
      rw [memorySeek]
      split_ifs
      · exact placed_fails (Nat.le_refl _)
      · exact placed_fails (Nat.zero_le _)
      · exact placed_moves (by omega)
  | other => exact ⟨inside, rfl, rfl⟩

theorem Sound.skip (sound : s.Sound) {n : Int} (fits : n ≤ s.buffered) : (s.skip n).2.Sound := by
  rcases sound with ⟨start, within⟩
  exact ⟨_, within.consume (show n.toNat ≤ s.buffered by omega) rfl rfl rfl⟩

theorem Sound.lowSeek (sound : s.Sound) (offset : Int) (whence : Whence) :
    (s.lowSeek offset whence).2.Sound := by
  rcases sound with ⟨start, within⟩
  exact Sound.of_empty (placed_memorySeek within.inside offset whence).inside
    ReadBuffer.valid_invalidate ReadBuffer.window_invalidate

theorem Sound.seek (sound : s.Sound) (offset : Int) (whence : Whence) :
    (s.seek offset whence).2.Sound := by
  cases whence with
  | cur =>
      rw [MemoryStream.seek]
      split_ifs with inWindow
      · exact sound.skip inWindow.2.2
      · exact sound.lowSeek _ _
  | set =>
      rw [MemoryStream.seek]
      split_ifs with inWindow
      · exact sound.skip (by omega)
      · exact sound.lowSeek _ _
  | fromEnd => exact sound.lowSeek _ _
  | other => exact sound.lowSeek _ _

theorem memoryWrite_inside (inside : s.fpos ≤ s.fsize) (bytes : List UInt8) :
    (s.memoryWrite bytes).2.fpos ≤ (s.memoryWrite bytes).2.fsize ∧
      (s.memoryWrite bytes).2.toReadBuffer = s.toReadBuffer := by
  rw [memoryWrite]
  split_ifs
  · exact ⟨inside, rfl⟩
  · refine ⟨?_, rfl⟩
    rw [fsize] at inside ⊢
    simp only [List.length_append, List.length_take, List.length_drop]
    omega

theorem sound_writeLoop {fuel : Nat} {bytes : List UInt8} (inside : s.fpos ≤ s.fsize)
    (valid : s.toReadBuffer.Valid) (empty : s.window = []) : (s.writeLoop fuel bytes).Sound := by
  induction fuel generalizing s bytes with
  | zero => exact Sound.of_empty inside valid empty
  | succ fuel induction =>
      have written := memoryWrite_inside inside (bytes.take s.chunkSize)
      rw [writeLoop]
      generalize s.memoryWrite (bytes.take s.chunkSize) = result at written
      by_cases nothing : bytes = []
      · rw [if_pos nothing]
        exact Sound.of_empty inside valid empty
      · rw [if_neg nothing]
        rw [← written.2] at valid empty
        by_cases wrote : 0 < int result.1
        · rw [if_pos wrote]
          exact @induction (result.2.count result.1) _ written.1 valid empty
        · rw [if_neg wrote]
          exact Sound.of_empty written.1 valid empty

theorem Sound.write (sound : s.Sound) (bytes : List UInt8) : (s.write bytes).Sound := by
  rcases sound with ⟨start, within⟩
  have inside := within.inside
  rw [MemoryStream.write]
  split_ifs with nothing empty
  · exact ⟨start, within⟩
  · apply sound_writeLoop inside within.toValid
    apply List.eq_nil_of_length_eq_zero
    rw [within.window_length, ReadBuffer.buffered, empty, Nat.sub_self]
  · have placed := @placed_memorySeek { s with toReadBuffer := s.invalidate } inside s.position .set
    apply sound_writeLoop placed.inside <;> rw [placed.sameBuffer]
    · exact ReadBuffer.valid_invalidate
    · exact ReadBuffer.window_invalidate

theorem Sound.call (sound : s.Sound) (call : Call) : (s.call call).Sound := by
  cases call with
  | read size => exact (sound.read size).1
  | write bytes => exact sound.write bytes
  | seek offset whence => exact sound.seek offset whence

/-- Along every history the buffer agrees with the data. -/
theorem sound_history (data : List UInt8) (readonly noBuffer : Bool) (chunkSize : Nat)
    (calls : List Call) : (calls.foldl call (opened data readonly noBuffer chunkSize)).Sound := by
  have start : (opened data readonly noBuffer chunkSize).Sound :=
    Sound.of_empty (Nat.zero_le _) ⟨Nat.le_refl 0, Nat.le_refl 0⟩ rfl
  generalize opened data readonly noBuffer chunkSize = s at start
  induction calls generalizing s with
  | nil => exact start
  | cons first calls induction => exact induction _ (start.call first)

/-! ## A failing seek -/

/-- Where a failing seek leaves the cursor. -/
def leftAt (s : MemoryStream) (offset : Int) : Whence → Nat
  | .set | .cur => s.fsize
  | .fromEnd => if 0 < offset then s.fsize else 0
  | .other => s.fpos

/-- The position that a failing seek leaves. -/
def leftTelling (s : MemoryStream) : Whence → Int
  | .other => s.fpos
  | _ => -1

/-- The position is already the one that a failing seek leaves, and so is the next byte. -/
def Unaffected (s : MemoryStream) (offset : Int) (whence : Whence) : Prop :=
  s.tell = s.leftTelling whence ∧ s.fpos - s.window.length = s.leftAt offset whence

/-- What a failing seek changes. -/
structure Left (s t : MemoryStream) (offset : Int) (whence : Whence) : Prop where
  tells : t.tell = s.leftTelling whence
  cursor : t.fpos = s.leftAt offset whence
  sameData : t.data = s.data
  empty : t.window = []

theorem left_lowSeek_set {offset : Int} (failed : (s.lowSeek offset .set).1 = -1) :
    Left s (s.lowSeek offset .set).2 offset .set := by
  rw [lowSeek, memorySeek] at failed ⊢
  split_ifs at failed ⊢
  · exact ⟨rfl, rfl, rfl, rfl⟩
  · cases failed

theorem left_seek {offset : Int} {whence : Whence} (failed : (s.seek offset whence).1 = -1) :
    Left s (s.seek offset whence).2 offset whence := by
  cases whence with
  | cur =>
      rw [seek] at failed ⊢
      split_ifs at failed ⊢
      · cases failed
      · exact { left_lowSeek_set failed with }
  | set =>
      rw [seek] at failed ⊢
      split_ifs at failed ⊢
      · cases failed
      · exact left_lowSeek_set failed
  | fromEnd =>
      change (s.lowSeek offset .fromEnd).1 = -1 at failed
      change Left s (s.lowSeek offset .fromEnd).2 offset .fromEnd
      rw [lowSeek, memorySeek] at failed ⊢
      split_ifs at failed ⊢ with behind
      · exact ⟨rfl, (if_pos behind).symm, rfl, rfl⟩
      · exact ⟨rfl, (if_neg behind).symm, rfl, rfl⟩
      · cases failed
  | other => exact ⟨rfl, rfl, rfl, rfl⟩

/-- The bytes ahead are the same if and only if the next byte is. -/
theorem Window.ahead_eq_iff {start other : Nat} (within : s.Window start)
    (withinOther : t.Window other) (sameData : t.data = s.data) :
    t.ahead = s.ahead ↔ other = start := by
  constructor
  · intro same
    have lengths := congrArg List.length same
    rw [within.length_ahead, withinOther.length_ahead, fsize, fsize, sameData] at lengths
    have inside := within.inside
    have order := within.starts
    have insideOther := withinOther.inside
    have orderOther := withinOther.starts
    rw [fsize] at inside insideOther
    rw [sameData] at insideOther
    omega
  · intro equal
    rw [withinOther.ahead, within.ahead, sameData, equal]

/-- After any history, a failing seek leaves what `tell` and reads return as it was only if it
finds the position and the next byte where it leaves them. -/
theorem failing_seek_iff (data : List UInt8) (readonly noBuffer : Bool) (chunkSize : Nat)
    (calls : List Call) (offset : Int) (whence : Whence)
    (failed : ((calls.foldl call (opened data readonly noBuffer chunkSize)).seek offset
      whence).1 = -1) :
    let s := calls.foldl call (opened data readonly noBuffer chunkSize)
    (s.seek offset whence).2.tell = s.tell ∧ (s.seek offset whence).2.ahead = s.ahead ↔
      s.Unaffected offset whence := by
  intro s
  have left : Left s (s.seek offset whence).2 offset whence := left_seek failed
  have sound : s.Sound := sound_history data readonly noBuffer chunkSize calls
  rcases sound.seek offset whence with ⟨next, afterwards⟩
  have after := Window.of_empty afterwards.inside afterwards.toValid left.empty
  rcases sound with ⟨start, within⟩
  have isStart : s.fpos - s.window.length = start := by
    have length := within.length
    have order := within.starts
    omega
  rw [within.ahead_eq_iff after left.sameData, left.tells, left.cursor, Unaffected, isStart]
  exact and_congr eq_comm eq_comm

/-- After a seek behind the end, another one changes nothing more. -/
theorem failing_seek_again :
    let s := [Call.seek 5 .set].foldl call (opened [97, 98] true true 8192)
    (s.seek 7 .set).1 = -1 ∧ (s.seek 7 .set).2.tell = s.tell ∧
      (s.seek 7 .set).2.ahead = s.ahead :=
  ⟨by decide, (failing_seek_iff [97, 98] true true 8192 [.seek 5 .set] 7 .set (by decide)).mpr
    ⟨by decide, by decide⟩⟩

/-- A seek behind the end of two bytes: the position is -1, and the bytes are skipped. -/
theorem failing_seek_moves :
    let s := opened [97, 98] true true 8192
    (s.seek 5 .set).1 = -1 ∧ s.tell = 0 ∧ (s.seek 5 .set).2.tell = -1 ∧
      (s.read 2).1 = [97, 98] ∧ ((s.seek 5 .set).2.read 2).1 = [] := by
  decide

end MemoryStream

end PhpRuntime.Streams
