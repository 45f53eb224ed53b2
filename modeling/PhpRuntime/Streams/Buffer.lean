import Mathlib.Data.List.Infix

/-! # The read buffer of a stream

`_php_stream_fill_read_buffer` and `_php_stream_read` of `main/streams/streams.c`, for a
stream without filters. The bytes that the source behind `ops->read` still has to give are a
field of the stream, and so is the schedule by which it gives them. What a stream still
delivers is its window, the bytes between `readpos` and `writepos`, and then those bytes.
-/

namespace PhpRuntime.Streams

/-- The read buffer of a `php_stream`. -/
structure ReadBuffer where
  /-- `readbuflen` bytes; the empty list is also the `NULL` of a new stream. -/
  readbuf : List UInt8
  readpos : Nat
  writepos : Nat
  chunkSize : Nat

namespace ReadBuffer

variable {b : ReadBuffer} {bytes : List UInt8} {n : Nat}

/-- `STREAM_BUFFERED_AMOUNT(stream)` -/
def buffered (b : ReadBuffer) : Nat := b.writepos - b.readpos

/-- The buffered bytes. -/
def window (b : ReadBuffer) : List UInt8 := (b.readbuf.take b.writepos).drop b.readpos

/-- The room behind `writepos`. -/
def room (b : ReadBuffer) : Nat := b.readbuf.length - b.writepos

/-- The `memmove` of the window to the front of the buffer. -/
def reduce (b : ReadBuffer) : ReadBuffer :=
  if b.readbuf ≠ [] ∧ b.room < b.chunkSize then
    { b with
      readbuf := b.readbuf.drop b.readpos ++ b.readbuf.drop (b.readbuf.length - b.readpos)
      writepos := b.writepos - b.readpos
      readpos := 0 }
  else
    b

/-- The `perealloc`, where there is no room for `n` bytes, by as many; the new bytes are not read
before they are written. -/
def grow (b : ReadBuffer) (n : Nat) : ReadBuffer :=
  if b.room < n then { b with readbuf := b.readbuf ++ List.replicate n 0 } else b

/-- Bytes go into the room behind `writepos`. -/
def receive (b : ReadBuffer) (bytes : List UInt8) : ReadBuffer :=
  { b with
    readbuf := b.readbuf.take b.writepos ++
      (bytes ++ b.readbuf.drop (b.writepos + bytes.length))
    writepos := b.writepos + bytes.length }

/-- `stream->readpos += n` -/
def consume (b : ReadBuffer) (n : Nat) : ReadBuffer := { b with readpos := b.readpos + n }

/-- `stream->readpos = stream->writepos = 0` -/
def invalidate (b : ReadBuffer) : ReadBuffer := { b with readpos := 0, writepos := 0 }

/-- The window lies in the buffer. -/
structure Valid (b : ReadBuffer) : Prop where
  order : b.readpos ≤ b.writepos
  bound : b.writepos ≤ b.readbuf.length

theorem Valid.window_length (valid : b.Valid) : b.window.length = b.buffered := by
  have bound := valid.bound
  simp [window, buffered, Nat.min_eq_left bound]

theorem chunkSize_grow : (b.grow n).chunkSize = b.chunkSize := by
  rw [grow]
  split <;> rfl

theorem chunkSize_refill : (b.reduce.grow n).chunkSize = b.chunkSize := by
  rw [chunkSize_grow, reduce]
  split <;> rfl

theorem valid_invalidate : b.invalidate.Valid := ⟨Nat.le_refl 0, Nat.zero_le _⟩

theorem window_invalidate : b.invalidate.window = [] := rfl

theorem window_consume : (b.consume n).window = b.window.drop n := by
  simp [consume, window, List.drop_drop]

theorem Valid.consume (valid : b.Valid) (fits : n ≤ b.buffered) : (b.consume n).Valid := by
  have order := valid.order
  refine ⟨?_, valid.bound⟩
  simp only [ReadBuffer.consume, buffered] at fits ⊢
  omega

theorem Valid.reduce (valid : b.Valid) : b.reduce.Valid ∧ b.reduce.window = b.window := by
  rw [ReadBuffer.reduce]
  split
  · have order := valid.order
    have bound := valid.bound
    have same : ∀ tail, ((b.readbuf.drop b.readpos ++ tail).take (b.writepos - b.readpos)).drop 0 =
        b.window := by
      intro tail
      rw [List.drop_zero, List.take_append_of_le_length, ← List.drop_take, window]
      rw [List.length_drop]
      omega
    refine ⟨⟨Nat.zero_le _, ?_⟩, same _⟩
    simp only [List.length_append, List.length_drop]
    omega
  · exact ⟨valid, rfl⟩

/-- Growing keeps the window and leaves room for the bytes. -/
theorem Valid.grow (valid : b.Valid) (n : Nat) :
    (b.grow n).Valid ∧ (b.grow n).window = b.window ∧ n ≤ (b.grow n).room := by
  have bound := valid.bound
  rw [ReadBuffer.grow]
  split
  · refine ⟨⟨valid.order, ?_⟩, ?_, ?_⟩
    · simp only [List.length_append]
      omega
    · rw [window, List.take_append_of_le_length bound, window]
    · simp only [room, List.length_append, List.length_replicate]
      omega
  · exact ⟨valid, rfl, by omega⟩

/-- What is received stands behind the window. -/
theorem Valid.receive (valid : b.Valid) :
    (b.receive bytes).Valid ∧ (b.receive bytes).window = b.window ++ bytes := by
  have order := valid.order
  have bound := valid.bound
  have front : (b.readbuf.take b.writepos).length = b.writepos := List.length_take_of_le bound
  have ends : (b.readbuf.take b.writepos ++ bytes).length = b.writepos + bytes.length := by
    rw [List.length_append, front]
  refine ⟨⟨order.trans (Nat.le_add_right _ _), ?_⟩, ?_⟩
  · simp only [ReadBuffer.receive, List.length_append, List.length_take, List.length_drop]
    omega
  · rw [window, ReadBuffer.receive, ← List.append_assoc, ← ends, List.take_left,
      List.drop_append_of_le_length (by rw [front]; exact order), window]

/-- The buffer that is filled next. -/
theorem Valid.refill (valid : b.Valid) :
    (b.reduce.grow b.chunkSize).Valid ∧ (b.reduce.grow b.chunkSize).window = b.window ∧
      b.chunkSize ≤ (b.reduce.grow b.chunkSize).room := by
  rcases valid.reduce with ⟨reduced, same⟩
  rcases reduced.grow b.chunkSize with ⟨grown, stays, room⟩
  exact ⟨grown, stays.trans same, room⟩

end ReadBuffer

/-- `php_stream`: the read buffer, the flags that reading looks at, and the source. -/
structure PhpStream extends ReadBuffer where
  position : Nat
  eof : Bool
  /-- `PHP_STREAM_FLAG_NO_BUFFER` -/
  noBuffer : Bool
  /-- `PHP_STREAM_FLAG_DETECT_EOL` -/
  detectEol : Bool
  /-- `PHP_STREAM_FLAG_EOL_MAC` -/
  eolMac : Bool
  /-- The wrapper is `php_plain_files_wrapper`. -/
  plainFiles : Bool
  /-- What `ops->read` has not given yet. -/
  rest : List UInt8
  /-- How many bytes each call of `ops->read` would like to give. -/
  schedule : Nat → Nat
  /-- The calls of `ops->read` so far. -/
  calls : Nat

namespace PhpStream

open ReadBuffer

variable {s t : PhpStream} {size n : Nat}

/-- `ops->read(stream, buf, count)`: at least one of the bytes that are left and at most
`count` of them, as the schedule has it. Without any left it gives none and sets `eof`. -/
def opsRead (s : PhpStream) (count : Nat) : List UInt8 × PhpStream :=
  let given := s.rest.take (min count (max 1 (s.schedule s.calls)))
  (given, { s with
    rest := s.rest.drop given.length
    eof := s.eof || s.rest.isEmpty
    calls := s.calls + 1 })

/-- `_php_stream_fill_read_buffer` -/
def fillReadBuffer (s : PhpStream) (size : Nat) : PhpStream :=
  if s.buffered < size then
    let buffer := s.reduce.grow s.chunkSize
    let read := s.opsRead buffer.room
    { read.2 with toReadBuffer := buffer.receive read.1 }
  else
    s

/-- `stream->readpos += n` -/
def advance (s : PhpStream) (n : Nat) : PhpStream := { s with toReadBuffer := s.consume n }

/-- `stream->position += n` -/
def count (s : PhpStream) (n : Nat) : PhpStream := { s with position := s.position + n }

/-- Takes from the read buffer. -/
def drain (s : PhpStream) (size : Nat) : List UInt8 × PhpStream :=
  if s.readpos < s.writepos then
    (s.window.take size, s.advance (min s.buffered size))
  else
    ([], s)

/-- The excess: raw, or through the buffer. -/
def fetch (s : PhpStream) (size : Nat) : List UInt8 × PhpStream :=
  if s.noBuffer || s.chunkSize == 1 then
    s.opsRead size
  else
    let filled := s.fillReadBuffer size
    (filled.window.take size, filled.advance (min filled.buffered size))

/-- `while (size > 0)` of `_php_stream_read` -/
def readLoop : Nat → PhpStream → Nat → Option (List UInt8 × PhpStream)
  | 0, _, _ => none
  | fuel + 1, s, size =>
      if size = 0 then
        some ([], s)
      else
        let drained := s.drain size
        let size := size - drained.1.length
        if size = 0 then
          some drained
        else
          let fetched := drained.2.fetch size
          if fetched.1 = [] then
            some (drained.1, fetched.2)
          else if fetched.2.plainFiles = false then
            some (drained.1 ++ fetched.1, fetched.2)
          else
            (readLoop fuel fetched.2 (size - fetched.1.length)).map fun more =>
              (drained.1 ++ fetched.1 ++ more.1, more.2)

/-- `_php_stream_read`; a round that does not end the loop delivers a byte. -/
def read (s : PhpStream) (size : Nat) : Option (List UInt8 × PhpStream) :=
  (readLoop (size + 1) s size).map fun done => (done.1, done.2.count done.1.length)

/-! ## The bytes ahead -/

/-- All that the stream still delivers. -/
def ahead (s : PhpStream) : List UInt8 := s.window ++ s.rest

/-- The window lies in the buffer, `eof` is only set at the end of the source, and lines end
with a line feed. -/
structure Sound (s : PhpStream) : Prop extends s.toReadBuffer.Valid where
  chunk : 0 < s.chunkSize
  ended : s.eof = true → s.rest = []
  lines : s.detectEol = false ∧ s.eolMac = false

/-- From `s` to `t` the bytes `taken` are delivered and the position moves by `n`. -/
structure Moves (s t : PhpStream) (taken : List UInt8) (n : Nat) : Prop where
  sound : t.Sound
  ahead : s.ahead = taken ++ t.ahead
  position : t.position = s.position + n

/-- From `s` to `t` bytes of the source go into the window. -/
structure Filled (s t : PhpStream) : Prop where
  sound : t.Sound
  window : s.window <+: t.window
  ahead : t.ahead = s.ahead
  position : t.position = s.position

theorem Sound.filled (sound : s.Sound) : Filled s s :=
  ⟨sound, List.prefix_rfl, rfl, rfl⟩

theorem Filled.of_window (sound : t.Sound) (window : t.window = s.window) (rest : t.rest = s.rest)
    (position : t.position = s.position) : Filled s t := by
  refine ⟨sound, ?_, ?_, position⟩
  · rw [window]
  · rw [PhpStream.ahead, window, rest, PhpStream.ahead]

theorem Sound.moves (sound : s.Sound) : Moves s s [] 0 :=
  ⟨sound, rfl, rfl⟩

theorem Moves.trans {u : PhpStream} {first second : List UInt8} {m : Nat}
    (moves : Moves s t first n) (next : Moves t u second m) :
    Moves s u (first ++ second) (n + m) := by
  refine ⟨next.sound, ?_, ?_⟩
  · rw [moves.ahead, next.ahead, List.append_assoc]
  · rw [next.position, moves.position, Nat.add_assoc]

theorem Filled.trans {u : PhpStream} (filled : Filled s t) (next : Filled t u) : Filled s u :=
  ⟨next.sound, filled.window.trans next.window, next.ahead.trans filled.ahead,
    next.position.trans filled.position⟩

theorem Filled.then_moves {u : PhpStream} {taken : List UInt8} (filled : Filled s t)
    (next : Moves t u taken n) : Moves s u taken n :=
  ⟨next.sound, filled.ahead.symm.trans next.ahead, by rw [next.position, filled.position]⟩

theorem Filled.le_buffered (sound : s.Sound) (filled : Filled s t) : s.buffered ≤ t.buffered := by
  rw [← sound.window_length, ← filled.sound.window_length]
  exact filled.window.length_le

/-- What a refill adds to the window is gone from the source. -/
theorem Filled.rest_length (sound : s.Sound) (filled : Filled s t) :
    t.buffered + t.rest.length = s.buffered + s.rest.length := by
  have lengths := congrArg List.length filled.ahead
  simpa [PhpStream.ahead, sound.window_length, filled.sound.window_length] using lengths

theorem Moves.count {taken : List UInt8} {m : Nat} (moves : Moves s t taken n) :
    Moves s (t.count m) taken (n + m) := by
  refine ⟨⟨moves.sound.toValid, moves.sound.chunk, moves.sound.ended, moves.sound.lines⟩,
    moves.ahead, ?_⟩
  simp only [PhpStream.count, moves.position, Nat.add_assoc]

theorem advance_window : (s.advance n).window = s.window.drop n := window_consume

theorem Sound.advance (sound : s.Sound) (fits : n ≤ s.buffered) :
    Moves s (s.advance n) (s.window.take n) 0 := by
  refine ⟨⟨sound.toValid.consume fits, sound.chunk, sound.ended, sound.lines⟩, ?_, rfl⟩
  change s.window ++ s.rest = s.window.take n ++ ((s.advance n).window ++ s.rest)
  rw [advance_window, ← List.append_assoc, List.take_append_drop]

theorem Sound.advance_min (sound : s.Sound) :
    Moves s (s.advance (min s.buffered size)) (s.window.take size) 0 := by
  have moves := sound.advance (Nat.min_le_left s.buffered size)
  rwa [Nat.min_comm, ← sound.window_length, ← List.take_eq_take_min, sound.window_length,
    Nat.min_comm] at moves

/-! ## The refill -/

theorem opsRead_length_le : (s.opsRead size).1.length ≤ size := by
  simp only [opsRead, List.length_take]
  omega

theorem opsRead_rest : s.rest = (s.opsRead size).1 ++ (s.opsRead size).2.rest := by
  simp only [opsRead, List.length_take, ← List.drop_eq_drop_min, List.take_append_drop]

theorem opsRead_nil (positive : 0 < size) (nothing : (s.opsRead size).1 = []) :
    s.rest = [] ∧ (s.opsRead size).2.eof = true := by
  have empty : s.rest = [] := by
    apply (List.take_eq_nil_iff.mp nothing).resolve_left
    omega
  exact ⟨empty, by simp [opsRead, empty]⟩

theorem Sound.opsRead_ended (sound : s.Sound) (ended : (s.opsRead size).2.eof = true) :
    (s.opsRead size).2.rest = [] := by
  have nothing : s.rest = [] := by
    rcases Bool.or_eq_true_iff.mp ended with before | now
    · exact sound.ended before
    · exact List.isEmpty_iff.mp now
  simp [PhpStream.opsRead, nothing]

theorem Sound.opsRead_sound (sound : s.Sound) : (s.opsRead size).2.Sound :=
  ⟨sound.toValid, sound.chunk, sound.opsRead_ended, sound.lines⟩

/-- A raw read delivers from the source when the window is empty. -/
theorem Sound.opsRead (sound : s.Sound) (empty : s.window = []) :
    Moves s (s.opsRead size).2 (s.opsRead size).1 0 := by
  refine ⟨sound.opsRead_sound, ?_, rfl⟩
  · have stays : (s.opsRead size).2.window = s.window := rfl
    rw [PhpStream.ahead, PhpStream.ahead, stays, empty]
    exact opsRead_rest

theorem Sound.fill_window (sound : s.Sound) (needed : s.buffered < size) :
    (s.fillReadBuffer size).Valid ∧ (s.fillReadBuffer size).window =
      s.window ++ (s.opsRead (s.reduce.grow s.chunkSize).room).1 := by
  rcases sound.refill with ⟨valid, same, _⟩
  rw [fillReadBuffer, if_pos needed, ← same]
  exact valid.receive

theorem Sound.fill (sound : s.Sound) : Filled s (s.fillReadBuffer size) := by
  by_cases needed : s.buffered < size
  · rcases sound.fill_window needed with ⟨valid, window⟩
    have rest : (s.fillReadBuffer size).rest =
        (s.opsRead (s.reduce.grow s.chunkSize).room).2.rest := by
      rw [fillReadBuffer, if_pos needed]
    have isAhead : (s.fillReadBuffer size).ahead = s.ahead := by
      rw [PhpStream.ahead, window, rest, List.append_assoc, ← opsRead_rest, PhpStream.ahead]
    refine ⟨⟨valid, ?_, ?_, ?_⟩, ⟨_, window.symm⟩, isAhead, ?_⟩
    all_goals rw [fillReadBuffer, if_pos needed]
    · exact sound.chunk.trans_eq chunkSize_refill.symm
    · exact sound.opsRead_ended
    · exact sound.lines
    · rfl
  · rw [fillReadBuffer, if_neg needed]
    exact sound.filled

/-- A refill that was needed and added nothing has met the end of the source. -/
theorem Sound.fill_ended (sound : s.Sound) (needed : s.buffered < size)
    (nothing : (s.fillReadBuffer size).buffered = s.buffered) :
    (s.fillReadBuffer size).rest = [] ∧ (s.fillReadBuffer size).eof = true := by
  have room := sound.refill.2.2
  have chunk := sound.chunk
  rcases sound.fill_window needed with ⟨valid, window⟩
  have lengths := congrArg List.length window
  rw [valid.window_length, nothing, List.length_append, sound.window_length] at lengths
  have none := List.eq_nil_of_length_eq_zero (by omega : (s.opsRead
    (s.reduce.grow s.chunkSize).room).1.length = 0)
  have ended := opsRead_nil (by omega) none
  have split := @opsRead_rest s (s.reduce.grow s.chunkSize).room
  rw [ended.1, none] at split
  rw [fillReadBuffer, if_pos needed]
  exact ⟨split.symm, ended.2⟩

/-! ## Reading -/

/-- Delivers what is asked for, or the whole window. -/
theorem Sound.drain (sound : s.Sound) :
    Moves s (s.drain size).2 (s.drain size).1 0 ∧ (s.drain size).1 = s.window.take size ∧
      (s.drain size).2.window = s.window.drop size := by
  have length := sound.window_length
  rw [PhpStream.drain]
  split
  · refine ⟨sound.advance_min, rfl, ?_⟩
    rw [advance_window, ← length, Nat.min_comm, ← List.drop_eq_drop_min]
  · have empty : s.window = [] := by
      apply List.eq_nil_of_length_eq_zero
      rw [length, buffered]
      omega
    exact ⟨sound.moves, by simp [empty], by simp [empty]⟩

/-- With an empty window a fetch delivers a byte unless the source has ended. -/
theorem Sound.fetch (sound : s.Sound) (empty : s.window = []) (positive : 0 < size) :
    Moves s (s.fetch size).2 (s.fetch size).1 0 ∧ (s.fetch size).1.length ≤ size ∧
      ((s.fetch size).1 = [] → s.ahead = []) := by
  rw [PhpStream.fetch]
  split
  · refine ⟨sound.opsRead empty, opsRead_length_le, ?_⟩
    intro nothing
    rw [PhpStream.ahead, empty, (opsRead_nil positive nothing).1]
    rfl
  · have filled := @Sound.fill s size sound
    have length := filled.sound.window_length
    refine ⟨filled.then_moves filled.sound.advance_min, List.length_take_le _ _, ?_⟩
    · intro nothing
      have none : (s.fillReadBuffer size).window = [] :=
        (List.take_eq_nil_iff.mp nothing).resolve_left positive.ne'
      have before : s.buffered = 0 := by rw [← sound.window_length, empty]; rfl
      have after : (s.fillReadBuffer size).buffered = 0 := by rw [← length, none]; rfl
      have ended := sound.fill_ended (before ▸ positive) (after.trans before.symm)
      rw [← filled.ahead, PhpStream.ahead, none, ended.1]
      rfl

theorem Sound.readLoop {fuel : Nat} (sound : s.Sound) (enough : size < fuel) :
    ∃ out t, readLoop fuel s size = some (out, t) ∧ Moves s t out 0 ∧ out.length ≤ size ∧
      (out = [] → size = 0 ∨ s.ahead = []) := by
  induction fuel generalizing s size with
  | zero => omega
  | succ fuel induction =>
      rw [PhpStream.readLoop]
      split
      · exact ⟨[], s, rfl, sound.moves, Nat.zero_le _, fun _ => Or.inl ‹size = 0›⟩
      · rename_i positive
        rcases @Sound.drain s size sound with ⟨drained, first, left⟩
        have short : (s.drain size).1.length ≤ size := by
          rw [first]
          exact List.length_take_le _ _
        dsimp only
        split
        · refine ⟨_, _, rfl, drained, short, ?_⟩
          intro nothing
          have none : (s.drain size).1.length = 0 := List.length_eq_zero_iff.mpr nothing
          omega
        · rename_i excess
          have empty : (s.drain size).2.window = [] := by
            rw [left, List.drop_eq_nil_iff]
            simp only [first, List.length_take] at excess
            omega
          rcases drained.sound.fetch empty (Nat.pos_of_ne_zero excess) with ⟨fetched, bound, ended⟩
          have both := drained.trans fetched
          split
          · rename_i nothing
            rw [nothing, List.append_nil] at both
            refine ⟨_, _, rfl, both, short, ?_⟩
            intro none
            rw [drained.ahead, ended nothing, none]
            exact Or.inr rfl
          · rename_i something
            split
            · refine ⟨_, _, rfl, both, ?_, ?_⟩
              · rw [List.length_append]
                omega
              · intro none
                exact absurd (List.append_eq_nil_iff.mp none).2 something
            · have progress := List.length_pos_of_ne_nil something
              have rounds := @induction _ (size - (s.drain size).1.length -
                ((s.drain size).2.fetch (size - (s.drain size).1.length)).1.length) fetched.sound
                (by omega)
              rcases rounds with ⟨more, t, runs, moves, rest, -⟩
              refine ⟨_, t, by rw [runs]; rfl, both.trans moves, ?_, ?_⟩
              · simp only [List.length_append]
                omega
              · intro none
                simp only [List.append_eq_nil_iff] at none
                exact absurd none.1.2 something

/-- `_php_stream_read` delivers consecutive bytes, and some unless it is at the end. -/
theorem Sound.read (sound : s.Sound) (size : Nat) :
    ∃ out t, s.read size = some (out, t) ∧ Moves s t out out.length ∧ out.length ≤ size ∧
      (out = [] → size = 0 ∨ s.ahead = []) := by
  rcases sound.readLoop (Nat.lt_succ_self size) with ⟨out, t, runs, moves, bound, ended⟩
  have counted := @Moves.count _ _ _ _ out.length moves
  rw [Nat.zero_add] at counted
  exact ⟨out, t.count out.length, by rw [PhpStream.read, runs]; rfl, counted, bound, ended⟩

/-- What is buffered is delivered without a call of `ops->read`. -/
theorem Sound.read_buffered (sound : s.Sound) (fits : size ≤ s.buffered) :
    s.read size = some (s.window.take size, (s.advance size).count size) := by
  have length : (s.window.take size).length = size := by
    rw [List.length_take, sound.window_length]
    omega
  rw [PhpStream.read, PhpStream.readLoop]
  by_cases nothing : size = 0
  · subst nothing
    simp [PhpStream.count, PhpStream.advance, consume]
  · have drains : s.drain size = (s.window.take size, s.advance size) := by
      rw [PhpStream.drain, if_pos (by simp only [buffered] at fits; omega),
        Nat.min_eq_right fits]
    simp [nothing, drains, length]

end PhpStream

end PhpRuntime.Streams
