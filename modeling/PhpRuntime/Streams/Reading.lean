import PhpRuntime.Operators.Memnstr
import PhpRuntime.Streams.Buffer

/-! # Lines, records and forward seeks

`_php_stream_get_line`, `php_stream_get_record` and the relative forward `_php_stream_seek` of
`main/streams/streams.c`, and whole sequences of calls on a stream without a seek operation.
-/

namespace PhpRuntime.Streams

namespace PhpStream

/-- `php_stream_locate_eol(stream, NULL, 0)`, an index of the window. -/
def locateEol (s : PhpStream) : Option Nat × PhpStream :=
  let cr := s.window.findIdx? (· == 13)
  let lf := s.window.findIdx? (· == 10)
  if s.detectEol then
    match cr, lf with
    | some cr, some lf =>
        if lf ≠ cr + 1 ∧ ¬ lf < cr then
          (some cr, { s with detectEol := false, eolMac := true })
        else
          (some lf, { s with detectEol := false })
    | some cr, none => (some cr, { s with detectEol := false, eolMac := true })
    | none, some lf => (some lf, { s with detectEol := false })
    | none, none => (none, s)
  else if s.eolMac then
    (cr, s)
  else
    (lf, s)

/-- `cpysz` and `done`; `maxlen` is `none` when the buffer of the caller is `NULL`. -/
def copySize (maxlen eol : Option Nat) (avail : Nat) : Nat × Bool :=
  let cpysz := match eol with
    | some eol => eol + 1
    | none => avail
  match maxlen with
  | some maxlen =>
      if maxlen - 1 ≤ cpysz then (maxlen - 1, true) else (cpysz, eol.isSome)
  | none => (cpysz, eol.isSome)

/-- `toread` -/
def toread (s : PhpStream) : Option Nat → Nat
  | none => s.chunkSize
  | some maxlen => min (maxlen - 1) s.chunkSize

/-- `for (;;)` of `_php_stream_get_line` -/
def getLineLoop : Nat → PhpStream → Option Nat → Option (List UInt8 × PhpStream)
  | 0, _, _ => none
  | fuel + 1, s, maxlen =>
      if 0 < s.buffered then
        let located := s.locateEol
        let copied := copySize maxlen located.1 s.buffered
        let line := s.window.take copied.1
        let t := (located.2.advance copied.1).count copied.1
        if copied.2 then
          some (line, t)
        else
          (getLineLoop fuel t (maxlen.map (· - copied.1))).map fun more =>
            (line ++ more.1, more.2)
      else if s.eof then
        some ([], s)
      else
        let filled := s.fillReadBuffer (s.toread maxlen)
        if filled.buffered = 0 then some ([], filled) else getLineLoop fuel filled maxlen

/-- `_php_stream_get_line`; two rounds for each byte that is left are enough. -/
def getLine (s : PhpStream) (maxlen : Option Nat) :
    Option (Option (List UInt8) × PhpStream) :=
  if maxlen = some 0 then
    some (none, s)
  else
    (getLineLoop (2 * (s.buffered + s.rest.length) + 2) s maxlen).map fun done =>
      (if done.1 = [] then none else some done.1, done.2)

/-- `_php_stream_search_delim`, an index of the window. -/
def searchDelim (s : PhpStream) (maxlen skiplen : Nat) (delim : List UInt8) :
    Option (Option Nat) :=
  let seekLen := min s.buffered maxlen
  if seekLen ≤ skiplen then
    some none
  else
    let searched := (s.window.take seekLen).drop skiplen
    let found := match delim with
      | [first] => Operators.memchr searched 0 first searched.length
      | _ => Operators.zendMemnstr searched delim
    found.map (Option.map (skiplen + ·))

/-- `while (!found_delim && buffered_len < maxlen)` of `php_stream_get_record` -/
def recordLoop (maxlen : Nat) (delim : List UInt8) :
    Nat → PhpStream → Nat → Option (Option Nat × PhpStream)
  | 0, _, _ => none
  | fuel + 1, s, bufferedLen =>
      if bufferedLen < maxlen then
        let toReadNow := min (maxlen - bufferedLen) s.chunkSize
        let filled := s.fillReadBuffer (bufferedLen + toReadNow)
        let justRead := filled.buffered - bufferedLen
        if justRead = 0 then
          some (none, filled)
        else if delim = [] then
          recordLoop maxlen delim fuel filled (bufferedLen + justRead)
        else
          let skiplen := if delim.length - 1 ≤ bufferedLen then
            bufferedLen - (delim.length - 1) else 0
          match filled.searchDelim maxlen skiplen delim with
          | none => none
          | some (some found) => some (some found, filled)
          | some none => recordLoop maxlen delim fuel filled (bufferedLen + justRead)
      else
        some (none, s)

/-- The first search and the loop. -/
def locateRecord (s : PhpStream) (maxlen : Nat) (delim : List UInt8) :
    Option (Option Nat × PhpStream) :=
  match (if delim = [] then some none else s.searchDelim maxlen 0 delim) with
  | none => none
  | some (some found) => some (some found, s)
  | some none => recordLoop maxlen delim (s.rest.length + 1) s s.buffered

/-- What `php_stream_get_record` returns once its search is over. -/
def takeRecord (maxlen : Nat) (delim : List UInt8) :
    Option Nat × PhpStream → Option (Option (List UInt8) × PhpStream)
  | (some found, t) =>
      (t.read found).map fun done =>
        (some done.1, (done.2.advance delim.length).count delim.length)
  | (none, t) =>
      if delim = [] ∧ maxlen ≤ t.buffered then
        (t.read maxlen).map fun done => (some done.1, done.2)
      else if t.buffered < maxlen ∧ t.eof = false then
        some (none, t)
      else if t.buffered = 0 ∧ t.eof = true then
        some (none, t)
      else
        (t.read (min t.buffered maxlen)).map fun done => (some done.1, done.2)

/-- `php_stream_get_record` -/
def getRecord (s : PhpStream) (maxlen : Nat) (delim : List UInt8) :
    Option (Option (List UInt8) × PhpStream) :=
  if maxlen = 0 then
    some (none, s)
  else
    (s.locateRecord maxlen delim).bind (takeRecord maxlen delim)

/-- `while (offset > 0)` of `_php_stream_seek` -/
def seekLoop : Nat → PhpStream → Nat → Option (Int × PhpStream)
  | 0, _, _ => none
  | fuel + 1, s, offset =>
      if offset = 0 then
        some (0, { s with eof := false })
      else
        match s.read (min offset 1024) with
        | none => none
        | some (out, t) => if out = [] then some (-1, t) else seekLoop fuel t (offset - out.length)

/-- `_php_stream_seek(stream, offset, SEEK_CUR)` for `offset >= 0` and without `ops->seek`. -/
def seek (s : PhpStream) (offset : Nat) : Option (Int × PhpStream) :=
  if s.noBuffer = false ∧ 0 < offset ∧ offset ≤ s.buffered then
    some (0, { (s.advance offset).count offset with eof := false })
  else
    seekLoop (offset + 1) s offset

variable {s t : PhpStream} {maxlen offset : Nat} {delim : List UInt8}

theorem Sound.ahead_length (sound : s.Sound) :
    s.ahead.length = s.buffered + s.rest.length := by
  rw [ahead, List.length_append, sound.window_length]

/-- Delivers the first `n` buffered bytes and counts them. -/
theorem Sound.consume {n : Nat} (sound : s.Sound) (fits : n ≤ s.buffered) :
    Moves s ((s.advance n).count n) (s.window.take n) n := by
  have counted := @Moves.count _ _ _ _ n (sound.advance fits)
  rwa [Nat.zero_add] at counted

theorem Sound.consume_all (sound : s.Sound) :
    ((s.advance s.buffered).count s.buffered).ahead = s.rest := by
  change (s.advance s.buffered).window ++ s.rest = s.rest
  rw [advance_window, ← sound.window_length, List.drop_length, List.nil_append]

theorem take_window {n : Nat} (fits : n ≤ s.window.length) :
    s.ahead.take n = s.window.take n := by
  rw [ahead, List.take_append_of_le_length fits]

/-! ## Lines -/

/-- The bytes up to and including the next line feed, at most `maxlen - 1` of them. -/
def lineLength (bytes : List UInt8) : Option Nat → Nat
  | none => bytes.findIdx (· == 10) + 1
  | some maxlen => min (bytes.findIdx (· == 10) + 1) (maxlen - 1)

/-- The bytes up to and including the next `ending`, at most `maxlen - 1` of them. -/
def lineLengthBy (ending : UInt8) (bytes : List UInt8) : Option Nat → Nat
  | none => bytes.findIdx (· == ending) + 1
  | some maxlen => min (bytes.findIdx (· == ending) + 1) (maxlen - 1)

theorem lineLength_eq (bytes : List UInt8) (maxlen : Option Nat) :
    lineLength bytes maxlen = lineLengthBy 10 bytes maxlen := by
  cases maxlen <;> rfl

/-- What is copied from the window ends the line, or the line goes on behind the window. -/
theorem copySize_spec (ending : UInt8) (bytes behind : List UInt8) (maxlen : Option Nat) :
    let copied := copySize maxlen (bytes.findIdx? (· == ending)) bytes.length
    copied.1 ≤ bytes.length ∧
      if copied.2 then lineLengthBy ending (bytes ++ behind) maxlen = copied.1
      else copied.1 = bytes.length ∧ lineLengthBy ending (bytes ++ behind) maxlen =
        copied.1 + lineLengthBy ending behind (maxlen.map (· - copied.1)) := by
  have before := @List.findIdx_append _ (· == ending) bytes behind
  cases found : bytes.findIdx? (· == ending) with
  | some eol =>
      have index := List.findIdx?_eq_some_iff_findIdx_eq.mp found
      have here : (bytes ++ behind).findIdx (· == ending) = eol := by
        rw [before, index.2, if_pos index.1]
      have inside := index.1
      cases maxlen with
      | none =>
          simp [copySize, lineLengthBy, here]
          omega
      | some maxlen =>
          by_cases limit : maxlen - 1 ≤ eol + 1
          · simp [copySize, lineLengthBy, here, limit]
            omega
          · simp [copySize, lineLengthBy, here, limit]
            omega
  | none =>
      have absent := List.findIdx?_eq_none_iff.mp found
      have later : (bytes ++ behind).findIdx (· == ending) =
          behind.findIdx (· == ending) + bytes.length := by
        rw [before, if_neg]
        intro less
        rcases List.findIdx_lt_length.mp less with ⟨byte, member, equal⟩
        simp [absent byte member] at equal
      cases maxlen with
      | none =>
          simp [copySize, lineLengthBy, later]
          omega
      | some maxlen =>
          by_cases limit : maxlen - 1 ≤ bytes.length
          · simp [copySize, lineLengthBy, later, limit]
            omega
          · simp [copySize, lineLengthBy, later, limit]
            omega

/-- The stream without the flags for line ends, which only the search for one looks at. -/
def unflagged (s : PhpStream) : PhpStream := { s with detectEol := false, eolMac := false }

theorem unflagged_eq (lines : s.detectEol = false ∧ s.eolMac = false) : s.unflagged = s := by
  cases s
  cases lines.1
  cases lines.2
  rfl

theorem unflagged_fill (size : Nat) :
    (s.fillReadBuffer size).unflagged = s.unflagged.fillReadBuffer size := by
  rw [fillReadBuffer, fillReadBuffer, apply_ite unflagged]
  rfl

theorem unflagged_locateEol : s.locateEol.2.unflagged = s.unflagged := by
  rw [locateEol]
  split
  · split
    · split <;> rfl
    · rfl
    · rfl
    · rfl
  · split <;> rfl

/-- What has to hold of a property of streams for lines to end with `ending` from there on. -/
structure Follows (ending : UInt8) (holds : PhpStream → Prop) : Prop where
  locates : ∀ s, holds s → s.locateEol.1 = s.window.findIdx? (· == ending)
  consumes : ∀ s n, holds s → holds ((s.locateEol.2.advance n).count n)
  fills : ∀ s size, s.unflagged.Sound → holds s → s.buffered = 0 → holds (s.fillReadBuffer size)

/-- One round ends the line or moves to a state with fewer bytes ahead, or with the same
bytes ahead and some of them buffered. -/
theorem Follows.getLineLoop {ending : UInt8} {holds : PhpStream → Prop} {fuel : Nat}
    {maxlen : Option Nat} (follows : Follows ending holds) (sound : s.unflagged.Sound)
    (held : holds s) (enough : 2 * s.ahead.length + (if s.buffered = 0 then 1 else 0) < fuel) :
    ∃ line t, getLineLoop fuel s maxlen = some (line, t) ∧
      Moves s.unflagged t.unflagged line line.length ∧
      line = s.ahead.take (lineLengthBy ending s.ahead maxlen) ∧ holds t := by
  induction fuel generalizing s maxlen with
  | zero => omega
  | succ fuel induction =>
      have length : s.window.length = s.buffered := sound.window_length
      rw [PhpStream.getLineLoop]
      split
      · rename_i something
        have spec := copySize_spec ending s.window s.rest maxlen
        have next (n : Nat) : ((s.locateEol.2.advance n).count n).unflagged =
            (s.unflagged.advance n).count n := by
          rw [← @unflagged_locateEol s]
          rfl
        rw [length, ← follows.locates s held] at spec
        dsimp only at spec ⊢
        generalize copySize maxlen s.locateEol.1 s.buffered = copied at spec ⊢
        rcases spec with ⟨fits, ends⟩
        have moves := @Sound.consume s.unflagged copied.1 sound fits
        have after := follows.consumes s copied.1 held
        rw [← next] at moves
        have size : (s.window.take copied.1).length = copied.1 := by
          rw [List.length_take, length, Nat.min_eq_left fits]
        split at ends
        · refine ⟨_, _, if_pos ‹_›, ?_, ?_, after⟩
          · rw [size]
            exact moves
          · rw [ahead, ends, List.take_append_of_le_length (length ▸ fits)]
        · rcases ends with ⟨whole, later⟩
          have left : ((s.locateEol.2.advance copied.1).count copied.1).ahead = s.rest := by
            change ((s.locateEol.2.advance copied.1).count copied.1).unflagged.ahead = s.rest
            rw [next, whole]
            exact sound.consume_all
          have fewer : s.ahead.length = s.buffered + s.rest.length := sound.ahead_length
          have rounds := @induction _ (maxlen.map (· - copied.1)) moves.sound after (by
            rw [left]
            split <;> split at enough <;> omega)
          rcases rounds with ⟨more, t, runs, behind, rest, final⟩
          refine ⟨_, t, by rw [if_neg ‹_›, runs]; rfl, ?_, ?_, final⟩
          · have both := moves.trans behind
            rw [List.length_append, size]
            exact both
          · rw [rest, left, ahead, later, whole, ← length, List.take_length,
              List.take_length_add_append]
      · rename_i nothing
        have empty : s.window = [] := List.eq_nil_of_length_eq_zero (by omega)
        split
        · rename_i ended
          have atEnd : s.ahead = [] := by
            rw [ahead, empty]
            exact sound.ended ended
          exact ⟨[], s, rfl, sound.moves, by rw [atEnd, List.take_nil], held⟩
        · have filled := @Sound.fill s.unflagged (s.toread maxlen) sound
          have after := follows.fills s (s.toread maxlen) sound held (by omega)
          rw [← unflagged_fill] at filled
          have same : (s.fillReadBuffer (s.toread maxlen)).ahead = s.ahead := filled.ahead
          dsimp only
          split
          · rename_i still
            refine ⟨[], _, rfl, filled.then_moves filled.sound.moves, ?_, after⟩
            by_cases needed : 0 < s.toread maxlen
            · have none : (s.fillReadBuffer (s.toread maxlen)).window = [] :=
                List.eq_nil_of_length_eq_zero (filled.sound.window_length.trans still)
              have buffered : s.unflagged.buffered = 0 := by
                change s.buffered = 0
                omega
              have ended := @Sound.fill_ended s.unflagged (s.toread maxlen) sound (by omega) (by
                rw [← unflagged_fill, buffered]
                exact still)
              rw [← unflagged_fill] at ended
              have left : (s.fillReadBuffer (s.toread maxlen)).rest = [] := ended.1
              rw [← same, ahead, none, left, List.append_nil, List.take_nil]
            · have chunk : 0 < s.chunkSize := sound.chunk
              have short : lineLengthBy ending s.ahead maxlen = 0 := by
                cases maxlen with
                | none => exact absurd chunk needed
                | some maxlen =>
                    simp only [lineLengthBy, toread] at needed ⊢
                    omega
              rw [short, List.take_zero]
          · rename_i refilled
            have rounds := @induction _ maxlen filled.sound after (by
              rw [same, if_neg refilled]
              split at enough <;> omega)
            rcases rounds with ⟨line, t, runs, next, rest, final⟩
            exact ⟨line, t, runs, filled.then_moves next, by rw [rest, same], final⟩

/-- `NULL` for no bytes. -/
def orNull (bytes : List UInt8) : Option (List UInt8) := if bytes = [] then none else some bytes

theorem Follows.getLine {ending : UInt8} {holds : PhpStream → Prop}
    (follows : Follows ending holds) (sound : s.unflagged.Sound) (held : holds s)
    (maxlen : Option Nat) :
    ∃ t, s.getLine maxlen =
        some (orNull (s.ahead.take (lineLengthBy ending s.ahead maxlen)), t) ∧
      Moves s.unflagged t.unflagged (s.ahead.take (lineLengthBy ending s.ahead maxlen))
        (s.ahead.take (lineLengthBy ending s.ahead maxlen)).length ∧ holds t := by
  rw [PhpStream.getLine]
  split
  · rename_i zero
    subst zero
    exact ⟨s, by simp [lineLengthBy, orNull], by simpa [lineLengthBy] using sound.moves, held⟩
  · have length : s.ahead.length = s.buffered + s.rest.length := sound.ahead_length
    have rounds := @Follows.getLineLoop s ending holds
      (2 * (s.buffered + s.rest.length) + 2) maxlen follows sound held (by
      rw [length]
      split <;> omega)
    rcases rounds with ⟨line, t, runs, moves, rfl, final⟩
    exact ⟨t, by rw [runs]; rfl, moves, final⟩

/-- Without flags lines end with a line feed. -/
theorem follows_lines : Follows 10 fun s => s.detectEol = false ∧ s.eolMac = false := by
  have located (s : PhpStream) (lines : s.detectEol = false ∧ s.eolMac = false) :
      s.locateEol = (s.window.findIdx? (· == 10), s) := by
    simp [locateEol, lines]
  refine ⟨fun s lines => by rw [located s lines], fun s n lines => ?_, fun s size _ lines _ => ?_⟩
  · rw [located s lines]
    exact lines
  · rw [← unflagged_eq lines, ← unflagged_fill]
    exact ⟨rfl, rfl⟩

theorem Sound.getLine (sound : s.Sound) (maxlen : Option Nat) :
    ∃ t, s.getLine maxlen = some (orNull (s.ahead.take (lineLength s.ahead maxlen)), t) ∧
      Moves s t (s.ahead.take (lineLength s.ahead maxlen))
        (s.ahead.take (lineLength s.ahead maxlen)).length := by
  have before := unflagged_eq sound.lines
  rcases follows_lines.getLine (before.symm ▸ sound) sound.lines maxlen with ⟨t, runs, moves, off⟩
  rw [before, unflagged_eq off] at moves
  rw [lineLength_eq]
  exact ⟨t, runs, moves⟩

/-! ## Records -/

open Operators (Occurs FirstFrom)

theorem occurs_append_iff {bytes behind : List UInt8} {p : Nat}
    (fits : p + delim.length ≤ bytes.length) :
    Occurs (bytes ++ behind) delim p ↔ Occurs bytes delim p := by
  rw [Occurs, Occurs, List.drop_append_of_le_length (by omega)]
  constructor
  · intro occurs
    apply List.prefix_of_prefix_length_le occurs (List.prefix_append _ _)
    rw [List.length_drop]
    omega
  · intro occurs
    exact occurs.trans (List.prefix_append _ _)

/-- The search answers for the whole window when nothing stands before `skiplen`. -/
theorem Sound.searchDelim {skiplen : Nat} (sound : s.Sound) (nonempty : delim ≠ [])
    (before : ∀ p < skiplen, ¬ Occurs (s.window.take maxlen) delim p) :
    ∃ found, s.searchDelim maxlen skiplen delim = some found ∧
      FirstFrom (s.window.take maxlen) delim 0 found := by
  have seekLen : s.window.take (min s.buffered maxlen) = s.window.take maxlen := by
    rw [Nat.min_comm, ← sound.window_length, ← List.take_eq_take_min]
  rw [PhpStream.searchDelim, seekLen]
  split
  · rename_i short
    refine ⟨none, rfl, ?_⟩
    intro p _ occurs
    apply before p _ occurs
    have inside := occurs.inside nonempty
    have positive := List.length_pos_of_ne_nil nonempty
    rw [List.length_take, sound.window_length] at inside
    omega
  · have search : ∃ found, (match delim with
          | [first] => Operators.memchr ((s.window.take maxlen).drop skiplen) 0 first
              ((s.window.take maxlen).drop skiplen).length
          | _ => Operators.zendMemnstr ((s.window.take maxlen).drop skiplen) delim) = some found ∧
        FirstFrom ((s.window.take maxlen).drop skiplen) delim 0 found := by
      split
      · exact Operators.memchr_finds
      · exact Operators.zendMemnstr_spec nonempty
    rcases search with ⟨found, runs, first⟩
    have shifted : ∀ p, Occurs ((s.window.take maxlen).drop skiplen) delim p ↔
        Occurs (s.window.take maxlen) delim (skiplen + p) := by
      intro p
      rw [Occurs, Occurs, List.drop_drop]
    refine ⟨found.map (skiplen + ·), by dsimp only; rw [runs]; rfl, ?_⟩
    apply FirstFrom.skip (Nat.zero_le skiplen) (fun p _ => before p)
    cases found with
    | none =>
        intro p later occurs
        apply first (p - skiplen) (Nat.zero_le _)
        rw [shifted, Nat.add_sub_cancel' later]
        exact occurs
    | some found =>
        refine ⟨Nat.le_add_right _ _, (shifted found).mp first.2.1, ?_⟩
        intro p later below occurs
        apply first.2.2 (p - skiplen) (Nat.zero_le _) (by dsimp only at below; omega)
        rw [shifted, Nat.add_sub_cancel' later]
        exact occurs

/-- What the search of a record knows at its end. -/
structure Located (t : PhpStream) (maxlen : Nat) (delim : List UInt8) (found : Option Nat) :
    Prop where
  first : delim ≠ [] → FirstFrom (t.window.take maxlen) delim 0 found
  plain : delim = [] → found = none
  enough : found = none → maxlen ≤ t.buffered ∨ t.rest = [] ∧ t.eof = true

theorem Sound.recordLoop {fuel : Nat} (sound : s.Sound) (enough : s.rest.length < fuel)
    (absent : delim ≠ [] → FirstFrom (s.window.take maxlen) delim 0 none) :
    ∃ found t, recordLoop maxlen delim fuel s s.buffered = some (found, t) ∧ Filled s t ∧
      Located t maxlen delim found := by
  induction fuel generalizing s with
  | zero => omega
  | succ fuel induction =>
      rw [PhpStream.recordLoop]
      split
      · rename_i less
        dsimp only
        have chunk := sound.chunk
        have needed : s.buffered < s.buffered + min (maxlen - s.buffered) s.chunkSize := by omega
        generalize s.buffered + min (maxlen - s.buffered) s.chunkSize = size at needed ⊢
        have filled := @Sound.fill s size sound
        have grows := filled.le_buffered sound
        have lengths := filled.rest_length sound
        split
        · have ended := sound.fill_ended needed (by omega)
          have same : (s.fillReadBuffer size).window = s.window := by
            apply (filled.window.eq_of_length _).symm
            rw [sound.window_length, filled.sound.window_length]
            omega
          exact ⟨none, _, rfl, filled, fun nonempty => same ▸ absent nonempty, fun _ => rfl,
            fun _ => Or.inr ended⟩
        · have again : s.buffered + ((s.fillReadBuffer size).buffered - s.buffered) =
              (s.fillReadBuffer size).buffered := by omega
          rw [again]
          split
          · rename_i plain
            rcases induction filled.sound (by omega) (fun nonempty => absurd plain nonempty) with
              ⟨found, t, runs, next, located⟩
            exact ⟨found, t, runs, filled.trans next, located⟩
          · rename_i nonempty
            have before : ∀ p < (if delim.length - 1 ≤ s.buffered then
                s.buffered - (delim.length - 1) else 0),
                ¬ Occurs ((s.fillReadBuffer size).window.take maxlen) delim p := by
              -- An occurrence before the part that is searched again ends in the old window.
              intro p below occurs
              have positive := List.length_pos_of_ne_nil nonempty
              rcases filled.window with ⟨added, window⟩
              have whole : s.window.take maxlen = s.window :=
                List.take_of_length_le (by rw [sound.window_length]; omega)
              have old := absent nonempty p (Nat.zero_le _)
              rw [whole] at old
              rw [← window, List.take_append, whole, occurs_append_iff] at occurs
              · exact old occurs
              · rw [sound.window_length]
                split at below <;> omega
            rcases filled.sound.searchDelim nonempty before with ⟨found, search, first⟩
            rw [search]
            cases found with
            | some found =>
                exact ⟨some found, _, rfl, filled, fun _ => first,
                  fun plain => absurd plain nonempty, fun none => nomatch none⟩
            | none =>
                rcases induction filled.sound (by omega) (fun _ => first) with
                  ⟨found, t, runs, next, located⟩
                exact ⟨found, t, runs, filled.trans next, located⟩
      · rename_i full
        exact ⟨none, s, rfl, sound.filled, absent, fun _ => rfl, fun _ => Or.inl (by omega)⟩

theorem Sound.locateRecord (sound : s.Sound) (maxlen : Nat) (delim : List UInt8) :
    ∃ found t, s.locateRecord maxlen delim = some (found, t) ∧ Filled s t ∧
      Located t maxlen delim found := by
  rw [PhpStream.locateRecord]
  by_cases plain : delim = []
  · rw [if_pos plain]
    exact sound.recordLoop (Nat.lt_succ_self _) (fun nonempty => absurd plain nonempty)
  · have before : ∀ p < 0, ¬ Occurs (s.window.take maxlen) delim p := nofun
    rcases sound.searchDelim plain before with ⟨found, search, first⟩
    rw [if_neg plain, search]
    cases found with
    | some found =>
        exact ⟨some found, s, rfl, sound.filled, fun _ => first,
          fun empty => absurd empty plain, fun none => nomatch none⟩
    | none => exact sound.recordLoop (Nat.lt_succ_self _) (fun _ => first)

/-- A delimiter is found in the window exactly where it is found in all that is ahead. -/
theorem Located.ahead_first {found : Option Nat} (sound : t.Sound)
    (located : Located t maxlen delim found) (nonempty : delim ≠ []) :
    FirstFrom (t.ahead.take maxlen) delim 0 found := by
  have first := located.first nonempty
  cases found with
  | none =>
      have same : t.ahead.take maxlen = t.window.take maxlen := by
        rcases located.enough rfl with full | ended
        · exact take_window (sound.window_length ▸ full)
        · rw [PhpStream.ahead, ended.1, List.append_nil]
      rw [same]
      exact first
  | some found =>
      have inside := first.2.1.inside nonempty
      rw [PhpStream.ahead, List.take_append]
      refine ⟨Nat.zero_le _, (occurs_append_iff inside).mpr first.2.1, ?_⟩
      intro p _ below occurs
      exact first.2.2 p (Nat.zero_le _) below ((occurs_append_iff (by omega)).mp occurs)

/-- What a record is and how many bytes it takes, from the place of the delimiter. -/
def recordAt (bytes : List UInt8) (maxlen : Nat) (delim : List UInt8) :
    Option Nat → Option (List UInt8) × List UInt8
  | some found => (some (bytes.take found), bytes.take (found + delim.length))
  | none => (orNull (bytes.take maxlen), bytes.take maxlen)

theorem Sound.read_take (sound : t.Sound) {n : Nat} (fits : n ≤ t.buffered) :
    t.read n = some (t.ahead.take n, (t.advance n).count n) ∧
      Moves t ((t.advance n).count n) (t.ahead.take n) (t.ahead.take n).length := by
  have length := sound.window_length
  have same := take_window (length ▸ fits : n ≤ t.window.length)
  have size : (t.window.take n).length = n := by rw [List.length_take, length]; omega
  rw [same, size]
  exact ⟨sound.read_buffered fits, sound.consume fits⟩

/-- A search that is over, without a byte lost, gives the record of what was ahead. -/
theorem Located.takeRecord {found : Option Nat} (located : Located t maxlen delim found)
    (filled : Filled s t) (positive : maxlen ≠ 0) :
    ∃ u, takeRecord maxlen delim (found, t) = some ((recordAt s.ahead maxlen delim found).1, u) ∧
      (delim ≠ [] → FirstFrom (s.ahead.take maxlen) delim 0 found) ∧
      Moves s u (recordAt s.ahead maxlen delim found).2
        (recordAt s.ahead maxlen delim found).2.length := by
  have length := filled.sound.window_length
  have first := located.ahead_first filled.sound
  rw [← filled.ahead]
  cases found with
  | some found =>
      have nonempty : delim ≠ [] := fun plain => nomatch located.plain plain
      have inside := (located.first nonempty).2.1.inside nonempty
      rw [List.length_take, length] at inside
      have reads := (@Sound.read_take t filled.sound found (by omega)).1
      have moves := (@Sound.read_take t filled.sound (found + delim.length) (by omega)).2
      have meets : (((t.advance found).count found).advance delim.length).count delim.length =
          (t.advance (found + delim.length)).count (found + delim.length) := by
        simp only [PhpStream.advance, ReadBuffer.consume, PhpStream.count, Nat.add_assoc]
      refine ⟨_, by rw [PhpStream.takeRecord, reads]; rfl, first, ?_⟩
      rw [meets]
      exact filled.then_moves moves
  | none =>
      have filledUp := located.enough rfl
      have reads := @Sound.read_take t filled.sound (min t.buffered maxlen) (Nat.min_le_left _ _)
      have whole : t.ahead.take (min t.buffered maxlen) = t.ahead.take maxlen := by
        rcases filledUp with full | ended
        · rw [Nat.min_eq_right full]
        · rw [Nat.min_comm, ← length, PhpStream.ahead, ended.1, List.append_nil,
            ← List.take_eq_take_min]
      rw [whole] at reads
      have some_bytes (buffered : t.buffered ≠ 0) :
          orNull (t.ahead.take maxlen) = some (t.ahead.take maxlen) := by
        apply if_neg
        intro nothing
        have size := congrArg List.length (whole.trans nothing)
        rw [List.length_take, filled.sound.ahead_length, List.length_nil] at size
        omega
      have moves := filled.then_moves reads.2
      rw [PhpStream.takeRecord]
      split_ifs with unlimited early late
      · rw [Nat.min_eq_right unlimited.2] at reads moves
        refine ⟨_, ?_, first, moves⟩
        rw [reads.1, recordAt, some_bytes (by omega)]
        rfl
      · rcases filledUp with full | ended
        · omega
        · exact absurd ended.2 (by simp [early.2])
      · have atEnd : t.ahead = [] := by
          rcases filledUp with full | ended
          · omega
          · apply List.eq_nil_of_length_eq_zero
            rw [filled.sound.ahead_length, late.1, ended.1]
            rfl
        refine ⟨t, ?_, first, ?_⟩
        · rw [recordAt, atEnd, List.take_nil]
          rfl
        · rw [recordAt, atEnd, List.take_nil]
          exact filled.then_moves filled.sound.moves
      · refine ⟨_, ?_, first, moves⟩
        have buffered : t.buffered ≠ 0 := by
          intro zero
          rcases filledUp with full | ended
          · omega
          · exact late ⟨zero, ended.2⟩
        rw [reads.1, recordAt, some_bytes buffered]
        rfl

/-- No delimiter is in a record of no bytes. -/
theorem firstFrom_zero (nonempty : delim ≠ []) (bytes : List UInt8) :
    FirstFrom (bytes.take 0) delim 0 none := by
  intro p _ occurs
  have inside := occurs.inside nonempty
  have positive := List.length_pos_of_ne_nil nonempty
  rw [List.take_zero, List.length_nil] at inside
  omega

theorem Sound.getRecord (sound : s.Sound) (maxlen : Nat) (delim : List UInt8) :
    ∃ found t, s.getRecord maxlen delim = some ((recordAt s.ahead maxlen delim found).1, t) ∧
      (delim ≠ [] → FirstFrom (s.ahead.take maxlen) delim 0 found) ∧
      (delim = [] → found = none) ∧
      Moves s t (recordAt s.ahead maxlen delim found).2
        (recordAt s.ahead maxlen delim found).2.length := by
  by_cases zero : maxlen = 0
  · rw [PhpStream.getRecord, if_pos zero]
    subst zero
    exact ⟨none, s, rfl, fun nonempty => firstFrom_zero nonempty _, fun _ => rfl, sound.moves⟩
  · rcases sound.locateRecord maxlen delim with ⟨found, t, runs, filled, located⟩
    rcases located.takeRecord filled zero with ⟨u, takes, first, moves⟩
    rw [PhpStream.getRecord, if_neg zero, runs]
    exact ⟨found, u, takes, first, located.plain, moves⟩

/-! ## Forward seeks -/

theorem Moves.clear_eof {taken : List UInt8} {n : Nat} (moves : Moves s t taken n) :
    Moves s { t with eof := false } taken n :=
  ⟨⟨moves.sound.toValid, moves.sound.chunk, (fun set => nomatch set), moves.sound.lines⟩,
    moves.ahead, moves.position⟩

/-- The seek succeeds unless the source ends before. -/
def seekCode (bytes : List UInt8) (offset : Nat) : Int := if offset ≤ bytes.length then 0 else -1

theorem Sound.seekLoop {fuel : Nat} (sound : s.Sound) (enough : offset < fuel) :
    ∃ t, seekLoop fuel s offset = some (seekCode s.ahead offset, t) ∧
      Moves s t (s.ahead.take offset) (s.ahead.take offset).length := by
  induction fuel generalizing s offset with
  | zero => omega
  | succ fuel induction =>
      rw [PhpStream.seekLoop]
      split
      · rename_i zero
        subst zero
        exact ⟨_, rfl, sound.moves.clear_eof⟩
      · rename_i positive
        rcases sound.read (min offset 1024) with ⟨out, t, reads, moves, bound, ended⟩
        rw [reads]
        dsimp only
        split
        · rename_i nothing
          have atEnd : s.ahead = [] := (ended nothing).resolve_left (by omega)
          rw [nothing] at moves
          refine ⟨t, ?_, by rwa [atEnd, List.take_nil]⟩
          rw [seekCode, atEnd, if_neg]
          rw [List.length_nil]
          omega
        · rename_i something
          have progress := List.length_pos_of_ne_nil something
          rcases @induction t (offset - out.length) moves.sound (by omega) with ⟨u, runs, next⟩
          have lengths := congrArg List.length moves.ahead
          rw [List.length_append] at lengths
          have parts : s.ahead.take offset = out ++ t.ahead.take (offset - out.length) := by
            rw [moves.ahead, List.take_append, List.take_of_length_le (by omega)]
          refine ⟨u, ?_, ?_⟩
          · rw [runs, seekCode, seekCode, lengths]
            split_ifs <;> first | rfl | omega
          · rw [parts, List.length_append]
            exact moves.trans next

theorem Sound.seek (sound : s.Sound) (offset : Nat) :
    ∃ t, s.seek offset = some (seekCode s.ahead offset, t) ∧
      Moves s t (s.ahead.take offset) (s.ahead.take offset).length := by
  rw [PhpStream.seek]
  split
  · rename_i inBuffer
    have fits := inBuffer.2.2
    refine ⟨_, ?_, (sound.read_take fits).2.clear_eof⟩
    rw [seekCode, sound.ahead_length, if_pos (by omega)]
  · exact sound.seekLoop (Nat.lt_succ_self offset)

end PhpStream

/-! ## Sequences of calls -/

inductive Call
  | read (size : Nat)
  | getLine (maxlen : Option Nat)
  | getRecord (maxlen : Nat) (delim : List UInt8)
  | seek (offset : Nat)

inductive Reply
  | bytes (out : List UInt8)
  | string (out : Option (List UInt8))
  | code (result : Int)
  deriving DecidableEq

namespace PhpStream

def call (s : PhpStream) : Call → Option (Reply × PhpStream)
  | .read size => (s.read size).map fun done => (.bytes done.1, done.2)
  | .getLine maxlen => (s.getLine maxlen).map fun done => (.string done.1, done.2)
  | .getRecord maxlen delim => (s.getRecord maxlen delim).map fun done => (.string done.1, done.2)
  | .seek offset => (s.seek offset).map fun done => (.code done.1, done.2)

def run (s : PhpStream) : List Call → Option (List Reply × PhpStream)
  | [] => some ([], s)
  | call :: calls =>
      match s.call call with
      | none => none
      | some (reply, t) => (t.run calls).map fun done => (reply :: done.1, done.2)

/-- The replies of one kind of call, made again and again. -/
def repeated {α β : Type} (call : PhpStream → α → Option (β × PhpStream)) :
    PhpStream → List α → Option (List β)
  | _, [] => some []
  | s, request :: more =>
      match call s request with
      | none => none
      | some (reply, t) => (repeated call t more).map (reply :: ·)

theorem repeated_cons {α β : Type} {call : PhpStream → α → Option (β × PhpStream)}
    {s t : PhpStream} {request : α} {more : List α} {reply : β} {replies : List β}
    (answered : call s request = some (reply, t)) (later : repeated call t more = some replies) :
    repeated call s (request :: more) = some (reply :: replies) := by
  rw [repeated, answered]
  dsimp only
  rw [later]
  rfl

/-- A new stream with `data` behind `ops->read`. -/
def opened (data : List UInt8) (schedule : Nat → Nat) (chunkSize : Nat)
    (noBuffer plainFiles : Bool) : PhpStream :=
  { readbuf := [], readpos := 0, writepos := 0, chunkSize, position := 0, eof := false, noBuffer,
    detectEol := false, eolMac := false, plainFiles, rest := data, schedule, calls := 0 }

theorem opened_sound {data : List UInt8} {schedule : Nat → Nat} {chunkSize : Nat}
    {noBuffer plainFiles : Bool} (positive : 0 < chunkSize) :
    (opened data schedule chunkSize noBuffer plainFiles).Sound :=
  ⟨⟨Nat.le_refl 0, Nat.le_refl 0⟩, positive, (fun set => nomatch set), rfl, rfl⟩

end PhpStream

open PhpStream Operators

/-- What a call answers when `left` is what the stream still has, and the bytes it takes. Only
how much `read` gives is up to the schedule. -/
inductive Answers (left : List UInt8) : Call → Reply → List UInt8 → Prop
  | read (size : Nat) (out : List UInt8) : out <+: left → out.length ≤ size →
      (out = [] → size = 0 ∨ left = []) → Answers left (.read size) (.bytes out) out
  | getLine (maxlen : Option Nat) : Answers left (.getLine maxlen)
      (.string (orNull (left.take (lineLength left maxlen)))) (left.take (lineLength left maxlen))
  | getRecord (maxlen : Nat) (delim : List UInt8) (found : Option Nat) :
      (delim ≠ [] → FirstFrom (left.take maxlen) delim 0 found) → (delim = [] → found = none) →
      Answers left (.getRecord maxlen delim) (.string (recordAt left maxlen delim found).1)
        (recordAt left maxlen delim found).2
  | seek (offset : Nat) :
      Answers left (.seek offset) (.code (seekCode left offset)) (left.take offset)

/-- The calls take consecutive bytes of `data`, from one position to another. -/
inductive Delivers (data : List UInt8) : Nat → List Call → List Reply → Nat → Prop
  | nil (position : Nat) : Delivers data position [] [] position
  | cons {position final : Nat} {call : Call} {reply : Reply} {taken : List UInt8}
      {calls : List Call} {replies : List Reply} :
      Answers (data.drop position) call reply taken →
      Delivers data (position + taken.length) calls replies final →
      Delivers data position (call :: calls) (reply :: replies) final

/-- The position is the number of bytes of `data` that are consumed. -/
structure At (data : List UInt8) (s : PhpStream) : Prop where
  sound : s.Sound
  ahead : s.ahead = data.drop s.position
  inside : s.position ≤ data.length

variable {data : List UInt8} {s t : PhpStream}

theorem Answers.of_call (sound : s.Sound) (call : Call) :
    ∃ reply t taken, s.call call = some (reply, t) ∧ Answers s.ahead call reply taken ∧
      Moves s t taken taken.length := by
  cases call with
  | read size =>
      rcases sound.read size with ⟨out, t, runs, moves, bound, ended⟩
      exact ⟨_, t, out, by rw [call, runs]; rfl,
        .read size out ⟨_, moves.ahead.symm⟩ bound ended, moves⟩
  | getLine maxlen =>
      rcases sound.getLine maxlen with ⟨t, runs, moves⟩
      exact ⟨_, t, _, by rw [call, runs]; rfl, .getLine maxlen, moves⟩
  | getRecord maxlen delim =>
      rcases sound.getRecord maxlen delim with ⟨found, t, runs, first, plain, moves⟩
      exact ⟨_, t, _, by rw [call, runs]; rfl, .getRecord maxlen delim found first plain, moves⟩
  | seek offset =>
      rcases sound.seek offset with ⟨t, runs, moves⟩
      exact ⟨_, t, _, by rw [call, runs]; rfl, .seek offset, moves⟩

theorem At.moves {taken : List UInt8} (stands : At data s) (moves : Moves s t taken taken.length) :
    At data t := by
  have ahead := stands.ahead.symm.trans moves.ahead
  have lengths := congrArg List.length ahead
  have inside := stands.inside
  rw [List.length_drop, List.length_append] at lengths
  refine ⟨moves.sound, ?_, ?_⟩
  · rw [moves.position, ← List.drop_drop, ahead, List.drop_left]
  · rw [moves.position]
    omega

theorem At.run (stands : At data s) (calls : List Call) :
    ∃ replies t, s.run calls = some (replies, t) ∧
      Delivers data s.position calls replies t.position ∧ At data t := by
  induction calls generalizing s with
  | nil => exact ⟨[], s, rfl, .nil _, stands⟩
  | cons call calls induction =>
      rcases Answers.of_call stands.sound call with ⟨reply, t, taken, answered, answer, moves⟩
      rcases induction (stands.moves moves) with ⟨replies, final, runs, delivers, ends⟩
      rw [stands.ahead] at answer
      rw [moves.position] at delivers
      exact ⟨reply :: replies, final, by rw [PhpStream.run, answered]; dsimp only; rw [runs]; rfl,
        .cons answer delivers, ends⟩

/-- For all data, schedules and chunk sizes, every sequence of calls returns. The calls take
consecutive bytes of the data and answer as the bytes that are left determine, and the
position is the number of bytes taken. -/
theorem run_delivers (data : List UInt8) (schedule : Nat → Nat) (chunkSize : Nat)
    (noBuffer plainFiles : Bool) (positive : 0 < chunkSize) (calls : List Call) :
    ∃ replies t, (opened data schedule chunkSize noBuffer plainFiles).run calls =
        some (replies, t) ∧
      Delivers data 0 calls replies t.position ∧ t.position ≤ data.length ∧
      t.window ++ t.rest = data.drop t.position := by
  have stands : At data (opened data schedule chunkSize noBuffer plainFiles) :=
    ⟨opened_sound positive, rfl, Nat.zero_le _⟩
  rcases stands.run calls with ⟨replies, t, runs, delivers, ends⟩
  exact ⟨replies, t, runs, delivers, ends.inside, ends.ahead⟩

/-- A delimiter that a refill cuts in two, in `ab--cd`. -/
theorem run_delivers_delimiter_across_refill :
    ((opened [97, 98, 45, 45, 99, 100] (fun _ => 3) 2 false false).run
        [.getRecord 10 [45, 45], .getLine none]).map (·.1) =
      some [.string (some [97, 98]), .string (some [99, 100])] ∧
    ∃ replies t, (opened [97, 98, 45, 45, 99, 100] (fun _ => 3) 2 false false).run
        [.getRecord 10 [45, 45], .getLine none] = some (replies, t) ∧
      Delivers [97, 98, 45, 45, 99, 100] 0 [.getRecord 10 [45, 45], .getLine none] replies
        t.position ∧ t.position ≤ 6 ∧
      t.window ++ t.rest = [97, 98, 45, 45, 99, 100].drop t.position :=
  ⟨by decide, run_delivers _ _ 2 false false (by decide) _⟩

end PhpRuntime.Streams
