import PhpRuntime.Streams.Reading

/-! # Records of a stream with a read filter

The branch of `_php_stream_fill_read_buffer` for a stream with a read filter, and
`php_stream_get_record` on such a stream, for a filter that passes every bucket on unchanged.
A refill starts with an empty buffer: what was buffered is gone.
-/

namespace PhpRuntime.Streams

namespace PhpStream

/-- A bucket that the filters passed on goes into the read buffer. -/
def appendBucket (s : PhpStream) (bucket : List UInt8) : PhpStream :=
  { s with toReadBuffer := (s.grow bucket.length).receive bucket }

/-- The loop of `_php_stream_fill_read_buffer` that feeds the filters. -/
def filterLoop : Nat → PhpStream → Nat → Option PhpStream
  | 0, _, _ => none
  | fuel + 1, s, size =>
      if s.eof = false ∧ s.buffered < size then
        let read := s.opsRead s.chunkSize
        if read.1 = [] then some read.2 else filterLoop fuel (read.2.appendBucket read.1) size
      else
        some s

/-- `_php_stream_fill_read_buffer` with a read filter; each round but the last reads a byte. -/
def fillFiltered (s : PhpStream) (size : Nat) : Option PhpStream :=
  filterLoop (s.rest.length + 1) { s with toReadBuffer := s.invalidate } size

/-- `while (!found_delim && buffered_len < maxlen)` of `php_stream_get_record`. The difference
`just_read` is one of `size_t`, so that it is also not 0 when less is buffered than before, and
`buffered_len += just_read` makes `buffered_len` what is buffered. -/
def recordLoopFiltered (maxlen : Nat) (delim : List UInt8) :
    Nat → PhpStream → Nat → Option (Option Nat × PhpStream)
  | 0, _, _ => none
  | fuel + 1, s, bufferedLen =>
      if bufferedLen < maxlen then
        let toReadNow := min (maxlen - bufferedLen) s.chunkSize
        match s.fillFiltered (bufferedLen + toReadNow) with
        | none => none
        | some filled =>
            if filled.buffered = bufferedLen then
              some (none, filled)
            else if delim = [] then
              recordLoopFiltered maxlen delim fuel filled filled.buffered
            else
              let skiplen := if delim.length - 1 ≤ bufferedLen then
                bufferedLen - (delim.length - 1) else 0
              match filled.searchDelim maxlen skiplen delim with
              | none => none
              | some (some found) => some (some found, filled)
              | some none => recordLoopFiltered maxlen delim fuel filled filled.buffered
      else
        some (none, s)

/-- The first search and the loop. At the end of the source a round empties the buffer and
another one finds it empty. -/
def locateRecordFiltered (s : PhpStream) (maxlen : Nat) (delim : List UInt8) :
    Option (Option Nat × PhpStream) :=
  match (if delim = [] then some none else s.searchDelim maxlen 0 delim) with
  | none => none
  | some (some found) => some (some found, s)
  | some none => recordLoopFiltered maxlen delim (s.rest.length + 3) s s.buffered

/-- `php_stream_get_record`. What it reads at the end is buffered, so that no refill is met
there. -/
def getRecordFiltered (s : PhpStream) (maxlen : Nat) (delim : List UInt8) :
    Option (Option (List UInt8) × PhpStream) :=
  if maxlen = 0 then
    some (none, s)
  else
    (s.locateRecordFiltered maxlen delim).bind (takeRecord maxlen delim)

/-- A call with its maximal length and its delimiter. -/
def record (s : PhpStream) (request : Nat × List UInt8) :
    Option (Option (List UInt8) × PhpStream) :=
  s.getRecord request.1 request.2

def recordFiltered (s : PhpStream) (request : Nat × List UInt8) :
    Option (Option (List UInt8) × PhpStream) :=
  s.getRecordFiltered request.1 request.2

/-! ## The refill -/

variable {s t : PhpStream} {size maxlen : Nat} {delim : List UInt8}

theorem Sound.appendBucket (sound : s.Sound) (bucket : List UInt8) :
    (s.appendBucket bucket).Sound ∧ (s.appendBucket bucket).window = s.window ++ bucket := by
  have grown := sound.toValid.grow bucket.length
  have received := @ReadBuffer.Valid.receive _ bucket grown.1
  have chunk : (s.appendBucket bucket).chunkSize = s.chunkSize := ReadBuffer.chunkSize_grow
  refine ⟨⟨received.1, chunk ▸ sound.chunk, sound.ended, sound.lines⟩, ?_⟩
  rw [← grown.2.1]
  exact received.2

/-- A round of the loop keeps what is ahead. -/
theorem Sound.filterRound (sound : s.Sound) :
    Filled s ((s.opsRead size).2.appendBucket (s.opsRead size).1) := by
  have appended := (@Sound.opsRead_sound s size sound).appendBucket (s.opsRead size).1
  have window : ((s.opsRead size).2.appendBucket (s.opsRead size).1).window =
      s.window ++ (s.opsRead size).1 := appended.2
  refine ⟨appended.1, ⟨_, window.symm⟩, ?_, rfl⟩
  rw [ahead, window, List.append_assoc]
  exact congrArg (s.window ++ ·) (@opsRead_rest s size).symm

theorem Sound.filterLoop {fuel : Nat} (sound : s.Sound) (enough : s.rest.length < fuel) :
    ∃ t, filterLoop fuel s size = some t ∧ Filled s t ∧ (size ≤ t.buffered ∨ t.eof = true) := by
  induction fuel generalizing s with
  | zero => omega
  | succ fuel induction =>
      rw [PhpStream.filterLoop]
      by_cases goes : s.eof = false ∧ s.buffered < size
      · rw [if_pos goes]
        dsimp only
        split_ifs with nothing
        · have ended := opsRead_nil sound.chunk nothing
          have split := @opsRead_rest s s.chunkSize
          rw [nothing] at split
          exact ⟨_, rfl, .of_window sound.opsRead_sound rfl split.symm rfl, Or.inr ended.2⟩
        · have round := @Sound.filterRound s s.chunkSize sound
          have progress := List.length_pos_of_ne_nil nothing
          have shorter := congrArg List.length (@opsRead_rest s s.chunkSize)
          rw [List.length_append] at shorter
          have left : ((s.opsRead s.chunkSize).2.appendBucket (s.opsRead s.chunkSize).1).rest =
              (s.opsRead s.chunkSize).2.rest := rfl
          rcases induction round.sound (by rw [left]; omega) with ⟨t, runs, filled, full⟩
          exact ⟨t, runs, round.trans filled, full⟩
      · rw [if_neg goes]
        refine ⟨s, rfl, sound.filled, ?_⟩
        cases ended : s.eof with
        | true => exact Or.inr rfl
        | false => exact Or.inl (Nat.le_of_not_lt fun less => goes ⟨ended, less⟩)

/-- With nothing buffered a refill loses nothing. -/
theorem Sound.fillFiltered (sound : s.Sound) (empty : s.buffered = 0) :
    ∃ t, s.fillFiltered size = some t ∧ Filled s t ∧ (size ≤ t.buffered ∨ t.eof = true) := by
  have reset : Filled s { s with toReadBuffer := s.invalidate } := by
    refine Filled.of_window ?_ ?_ rfl rfl
    · exact ⟨ReadBuffer.valid_invalidate, sound.chunk, sound.ended, sound.lines⟩
    · exact (List.eq_nil_of_length_eq_zero (sound.window_length.trans empty)).symm
  rcases @Sound.filterLoop _ size _ reset.sound (Nat.lt_succ_self s.rest.length) with
    ⟨t, runs, filled, full⟩
  exact ⟨t, runs, reset.trans filled, full⟩

/-! ## Records -/

open Operators (FirstFrom)

/-- The next record is buffered, with its delimiter or at its maximal length. -/
def Ready (s : PhpStream) (maxlen : Nat) (delim : List UInt8) : Prop :=
  maxlen ≤ s.buffered ∨ s.searchDelim maxlen 0 delim ≠ some none

/-- No refill of the call meets a buffer with something in it: the record is buffered, or
nothing is and the first refill gets all of the record, or meets the end of the source. -/
def Kept (s : PhpStream) (maxlen : Nat) (delim : List UInt8) : Prop :=
  s.Ready maxlen delim ∨ s.buffered = 0 ∧
    ∀ t ∈ s.fillFiltered (min maxlen s.chunkSize), t.buffered = 0 ∨ t.Ready maxlen delim

instance (s : PhpStream) (maxlen : Nat) (delim : List UInt8) : Decidable (s.Ready maxlen delim) :=
  inferInstanceAs (Decidable (_ ∨ _))

instance (s : PhpStream) (maxlen : Nat) (delim : List UInt8) : Decidable (s.Kept maxlen delim) :=
  inferInstanceAs (Decidable (_ ∨ _ ∧ ∀ t ∈ _, _))

/-- The search from the front of the window. -/
theorem Sound.searchFront (sound : s.Sound) (nonempty : delim ≠ []) :
    ∃ found, s.searchDelim maxlen 0 delim = some found ∧
      FirstFrom (s.window.take maxlen) delim 0 found :=
  sound.searchDelim nonempty (fun p below => absurd below (Nat.not_lt_zero p))

theorem Sound.recordLoopFiltered {fuel : Nat} (sound : s.Sound) (nonempty : delim ≠ [])
    (absent : s.searchDelim maxlen 0 delim = some none) (kept : s.Kept maxlen delim) :
    ∃ found t, recordLoopFiltered maxlen delim (fuel + 2) s s.buffered = some (found, t) ∧
      Filled s t ∧ Located t maxlen delim found := by
  have plain (found : Option Nat) : delim = [] → found = none := fun empty => absurd empty nonempty
  rcases sound.searchFront nonempty with ⟨found, search, first⟩
  obtain rfl : found = none := Option.some.inj (search.symm.trans absent)
  rw [PhpStream.recordLoopFiltered]
  by_cases less : s.buffered < maxlen
  · have nothing : s.buffered = 0 ∧ ∀ t ∈ s.fillFiltered (min maxlen s.chunkSize),
        t.buffered = 0 ∨ t.Ready maxlen delim := by
      apply kept.resolve_left
      intro ready
      exact ready.elim (Nat.not_le.mpr less) (fun found => found absent)
    rcases nothing with ⟨empty, refill⟩
    rcases @Sound.fillFiltered s (min maxlen s.chunkSize) sound empty with
      ⟨filled, fills, moved, full⟩
    have chunk := sound.chunk
    have skip : (if delim.length - 1 ≤ 0 then 0 - (delim.length - 1) else 0) = 0 := by
      split_ifs <;> omega
    rw [if_pos less, empty]
    dsimp only
    rw [Nat.sub_zero, Nat.zero_add, fills]
    dsimp only
    rw [if_neg nonempty, skip]
    by_cases atEnd : filled.buffered = 0
    · have ended : filled.eof = true := full.resolve_left (by omega)
      have window : filled.window = s.window := by
        rw [List.eq_nil_of_length_eq_zero (sound.window_length.trans empty),
          List.eq_nil_of_length_eq_zero (moved.sound.window_length.trans atEnd)]
      rw [if_pos atEnd]
      exact ⟨none, filled, rfl, moved, fun _ => window ▸ first, plain none,
        fun _ => Or.inr ⟨moved.sound.ended ended, ended⟩⟩
    · rcases @Sound.searchFront _ maxlen _ moved.sound nonempty with ⟨found, again, firstAgain⟩
      rw [if_neg atEnd, again]
      cases found with
      | some found =>
          exact ⟨some found, filled, rfl, moved, fun _ => firstAgain, plain _,
            fun absent => nomatch absent⟩
      | none =>
          have whole : maxlen ≤ filled.buffered :=
            ((refill filled fills).resolve_left atEnd).resolve_right (fun found => found again)
          refine ⟨none, filled, ?_, moved, fun _ => firstAgain, plain _, fun _ => Or.inl whole⟩
          dsimp only
          rw [PhpStream.recordLoopFiltered, if_neg (Nat.not_lt.mpr whole)]
  · rw [if_neg less]
    exact ⟨none, s, rfl, sound.filled, fun _ => first, plain _,
      fun _ => Or.inl (Nat.le_of_not_lt less)⟩

theorem Sound.getRecordFiltered (sound : s.Sound) (nonempty : delim ≠ [])
    (kept : s.Kept maxlen delim) :
    ∃ found t, s.getRecordFiltered maxlen delim =
        some ((recordAt s.ahead maxlen delim found).1, t) ∧
      FirstFrom (s.ahead.take maxlen) delim 0 found ∧
      Moves s t (recordAt s.ahead maxlen delim found).2
        (recordAt s.ahead maxlen delim found).2.length := by
  rw [PhpStream.getRecordFiltered]
  by_cases zero : maxlen = 0
  · rw [if_pos zero]
    subst zero
    exact ⟨none, s, rfl, firstFrom_zero nonempty _, sound.moves⟩
  · rw [if_neg zero]
    have locate : ∃ found t, s.locateRecordFiltered maxlen delim = some (found, t) ∧ Filled s t ∧
        Located t maxlen delim found := by
      rcases @Sound.searchFront _ maxlen _ sound nonempty with ⟨found, search, first⟩
      rw [locateRecordFiltered, if_neg nonempty, search]
      cases found with
      | some found =>
          exact ⟨some found, s, rfl, sound.filled, fun _ => first,
            fun plain => absurd plain nonempty, fun absent => nomatch absent⟩
      | none => exact sound.recordLoopFiltered nonempty search kept
    rcases locate with ⟨found, t, runs, filled, located⟩
    rcases located.takeRecord filled zero with ⟨u, takes, first, moves⟩
    rw [runs]
    exact ⟨found, u, takes, first nonempty, moves⟩

/-! ## Repeated calls -/

/-- No call of a sequence loses what is buffered. -/
def keeps : PhpStream → List (Nat × List UInt8) → Bool
  | _, [] => true
  | s, request :: more => decide (s.Kept request.1 request.2) &&
      (s.recordFiltered request).all fun answer => keeps answer.2 more

/-- Two streams with the same bytes ahead, one with the filter and one without. -/
theorem Sound.records_eq {requests : List (Nat × List UInt8)} (sound : s.Sound) (plain : t.Sound)
    (same : t.ahead = s.ahead) (nonempty : ∀ request ∈ requests, request.2 ≠ [])
    (kept : s.keeps requests) :
    ∃ replies, repeated recordFiltered s requests = some replies ∧
      repeated record t requests = some replies := by
  induction requests generalizing s t with
  | nil => exact ⟨[], rfl, rfl⟩
  | cons request more induction =>
      have delimiter := nonempty request List.mem_cons_self
      rw [keeps, Bool.and_eq_true, decide_eq_true_eq] at kept
      rcases sound.getRecordFiltered delimiter kept.1 with ⟨found, u, runs, first, moves⟩
      have later := kept.2
      rw [recordFiltered, runs] at later
      rcases plain.getRecord request.1 request.2 with
        ⟨other, v, runsPlain, firstPlain, _, movesPlain⟩
      obtain rfl : other = found := by
        have there := firstPlain delimiter
        rw [same] at there
        exact FirstFrom.unique there first
      rw [same] at runsPlain movesPlain
      have left : v.ahead = u.ahead := by
        have both := movesPlain.ahead.symm.trans (same.trans moves.ahead)
        exact List.append_cancel_left both
      rcases induction moves.sound movesPlain.sound left
        (fun request member => nonempty request (List.mem_cons_of_mem _ member))
        later with ⟨replies, filtered, unfiltered⟩
      exact ⟨_, repeated_cons runs filtered, repeated_cons runsPlain unfiltered⟩

end PhpStream

open PhpStream

/-- With a filter that passes everything on, calls that never refill a buffer with something in
it return the records of the stream without the filter. -/
theorem records_filtered_eq (data : List UInt8) (schedule : Nat → Nat) (chunkSize : Nat)
    (noBuffer plainFiles : Bool) (positive : 0 < chunkSize) (requests : List (Nat × List UInt8))
    (nonempty : ∀ request ∈ requests, request.2 ≠ [])
    (kept : (opened data schedule chunkSize noBuffer plainFiles).keeps requests) :
    ∃ replies,
      repeated recordFiltered (opened data schedule chunkSize noBuffer plainFiles) requests =
        some replies ∧
      repeated record (opened data schedule chunkSize noBuffer plainFiles) requests =
        some replies := by
  have sound : (opened data schedule chunkSize noBuffer plainFiles).Sound := opened_sound positive
  exact sound.records_eq sound rfl nonempty kept

/-- Two records that come with one refill, and the end. -/
theorem records_filtered_eq_one_refill :
    ∃ replies,
      repeated recordFiltered (opened [97, 10, 98, 10] (fun _ => 4) 4 false false)
        [(9, [10]), (9, [10]), (9, [10])] = some replies ∧
      repeated record (opened [97, 10, 98, 10] (fun _ => 4) 4 false false)
        [(9, [10]), (9, [10]), (9, [10])] = some replies :=
  records_filtered_eq _ _ 4 false false (by decide) _ (by decide) (by decide)

/-- A record that needs two refills loses what the first one gave: `abcd` becomes `cd`. -/
theorem records_filtered_loses :
    repeated recordFiltered (opened [97, 98, 99, 100, 10] (fun _ => 2) 2 false false)
        [(9, [10])] = some [some [99, 100]] ∧
      repeated record (opened [97, 98, 99, 100, 10] (fun _ => 2) 2 false false)
        [(9, [10])] = some [some [97, 98, 99, 100]] := by
  decide

end PhpRuntime.Streams
