import PhpRuntime.Foundation.CString
import PhpRuntime.Streams.Reading

/-! # Detected line ends

Repeated `_php_stream_get_line` calls on a stream with `PHP_STREAM_FLAG_DETECT_EOL`. The first
window with a carriage return or a line feed in it decides how all lines end. Whether a carriage
return at the end of that window has a line feed behind it is not seen.
-/

namespace PhpRuntime.Streams

open CString (findIdx?_eq_none)

/-! ## The decision -/

/-- How lines end after a look at `bytes`, if that is decided. -/
def decision (bytes : List UInt8) : Option UInt8 :=
  match bytes.findIdx? (· == 13), bytes.findIdx? (· == 10) with
  | some cr, some lf => if lf ≠ cr + 1 ∧ ¬ lf < cr then some 13 else some 10
  | some _, none => some 13
  | none, some _ => some 10
  | none, none => none

theorem decision_none_iff {bytes : List UInt8} :
    decision bytes = none ↔ 13 ∉ bytes ∧ 10 ∉ bytes := by
  rw [← findIdx?_eq_none, ← findIdx?_eq_none, decision]
  cases bytes.findIdx? (· == 13) with
  | none => cases bytes.findIdx? (· == 10) <;> simp
  | some cr =>
      cases bytes.findIdx? (· == 10) with
      | none => simp
      | some lf =>
          simp only [reduceCtorEq, and_self, iff_false]
          split_ifs <;> simp

theorem decision_none_of_subset {bytes piece : List UInt8} (nothing : decision bytes = none)
    (subset : piece ⊆ bytes) : decision piece = none := by
  rw [decision_none_iff] at nothing ⊢
  exact nothing.imp (mt (@subset _)) (mt (@subset _))

theorem decision_some {bytes : List UInt8} {ending : UInt8}
    (decided : decision bytes = some ending) : ending = 13 ∨ ending = 10 := by
  rw [decision] at decided
  split at decided
  · split_ifs at decided <;> simp_all
  all_goals simp_all

/-- From call `calls` on, the source gives `bytes` in pieces as the schedule has it, and the
first piece with a carriage return or a line feed makes lines end with `ending`. -/
inductive Detects (chunkSize : Nat) (schedule : Nat → Nat) :
    Nat → List UInt8 → UInt8 → Prop
  | here {calls : Nat} {bytes : List UInt8} {ending : UInt8} :
      decision (bytes.take (min chunkSize (max 1 (schedule calls)))) = some ending →
      Detects chunkSize schedule calls bytes ending
  | later {calls : Nat} {bytes : List UInt8} {ending : UInt8} :
      decision (bytes.take (min chunkSize (max 1 (schedule calls)))) = none →
      Detects chunkSize schedule (calls + 1)
        (bytes.drop (min chunkSize (max 1 (schedule calls)))) ending →
      Detects chunkSize schedule calls bytes ending

section Pieces

variable {chunkSize calls : Nat} {schedule : Nat → Nat} {bytes : List UInt8} {ending : UInt8}

/-- A byte that the front has not is where it is behind the front. -/
theorem findIdx_behind {front behind : List UInt8} {byte : UInt8} (missing : byte ∉ front) :
    (front ++ behind).findIdx (· == byte) = behind.findIdx (· == byte) + front.length := by
  rw [List.findIdx_append, if_neg]
  intro less
  rcases List.findIdx_lt_length.mp less with ⟨other, member, equal⟩
  exact missing (beq_iff_eq.mp equal ▸ member)

/-- A byte that the front has is where it is in the front. -/
theorem findIdx_front {front behind : List UInt8} {byte : UInt8} {n : Nat}
    (found : front.findIdx? (· == byte) = some n) :
    (front ++ behind).findIdx (· == byte) = n ∧ n < front.length ∧ front[n]? = some byte := by
  rcases List.findIdx?_eq_some_iff_findIdx_eq.mp found with ⟨inside, equal⟩
  rw [List.findIdx_append, equal, if_pos inside]
  refine ⟨rfl, inside, ?_⟩
  have there := List.findIdx?_eq_some_iff_getElem.mp found
  rcases there with ⟨inside, same, _⟩
  rw [List.getElem?_eq_getElem inside, beq_iff_eq.mp same]

/-- The first line feed stands right behind the first carriage return. -/
def CrLf (bytes : List UInt8) : Prop :=
  bytes.findIdx (· == 10) = bytes.findIdx (· == 13) + 1 ∧
    bytes.findIdx (· == 10) < bytes.length

/-- What is decided when a front of all bytes decides it. -/
theorem decision_front {front behind : List UInt8} (decided : decision front = some ending) :
    ending = 13 ∧ (front ++ behind).findIdx (· == 13) < (front ++ behind).findIdx (· == 10) ∨
      ending = 10 ∧ ((front ++ behind).findIdx (· == 10) < (front ++ behind).findIdx (· == 13) ∨
        CrLf (front ++ behind) ∧ 2 ≤ front.length) := by
  rw [decision] at decided
  cases crEq : front.findIdx? (· == 13) with
  | none =>
      have cr := @findIdx_behind _ behind _ (findIdx?_eq_none.mp crEq)
      cases lfEq : front.findIdx? (· == 10) with
      | none => simp [crEq, lfEq] at decided
      | some lf =>
          rcases @findIdx_front _ behind _ _ lfEq with ⟨lfAt, lfInside, _⟩
          simp only [crEq, lfEq, Option.some.injEq] at decided
          refine Or.inr ⟨decided.symm, Or.inl ?_⟩
          omega
  | some cr =>
      rcases @findIdx_front _ behind _ _ crEq with ⟨crAt, crInside, crByte⟩
      cases lfEq : front.findIdx? (· == 10) with
      | none =>
          have lf := @findIdx_behind _ behind _ (findIdx?_eq_none.mp lfEq)
          simp only [crEq, lfEq, Option.some.injEq] at decided
          refine Or.inl ⟨decided.symm, ?_⟩
          omega
      | some lf =>
          rcases @findIdx_front _ behind _ _ lfEq with ⟨lfAt, lfInside, lfByte⟩
          have different : lf ≠ cr := by
            intro equal
            rw [equal, crByte] at lfByte
            exact absurd lfByte (by decide)
          simp only [crEq, lfEq] at decided
          split_ifs at decided with mac
          · refine Or.inl ⟨(Option.some.inj decided).symm, ?_⟩
            omega
          · refine Or.inr ⟨(Option.some.inj decided).symm, ?_⟩
            rw [CrLf, crAt, lfAt, List.length_append]
            omega

/-- Which line ends can be detected. -/
theorem Detects.cases (detects : Detects chunkSize schedule calls bytes ending) :
    ending = 13 ∧ bytes.findIdx (· == 13) < bytes.findIdx (· == 10) ∨
      ending = 10 ∧ (bytes.findIdx (· == 10) < bytes.findIdx (· == 13) ∨
        CrLf bytes ∧ ∃ call, 2 ≤ min chunkSize (max 1 (schedule call))) := by
  induction detects with
  | @here calls bytes ending decided =>
      have found := @decision_front ending _
        (bytes.drop (min chunkSize (max 1 (schedule calls)))) decided
      rw [List.take_append_drop] at found
      refine found.imp_right fun unix => ⟨unix.1, unix.2.imp_right fun both => ⟨both.1, calls, ?_⟩⟩
      exact both.2.trans (List.length_take_le _ _)
  | @later calls bytes ending nothing _ induction =>
      have free := decision_none_iff.mp nothing
      have cr := @findIdx_behind _ (bytes.drop (min chunkSize (max 1 (schedule calls)))) _ free.1
      have lf := @findIdx_behind _ (bytes.drop (min chunkSize (max 1 (schedule calls)))) _ free.2
      have lengths := congrArg List.length
        (List.take_append_drop (min chunkSize (max 1 (schedule calls))) bytes)
      rw [List.length_append] at lengths
      rw [List.take_append_drop] at cr lf
      rw [CrLf] at induction ⊢
      rw [cr, lf, ← lengths]
      rcases induction with mac | ⟨unix, before | ⟨⟨behind, inside⟩, wide⟩⟩
      · exact Or.inl ⟨mac.1, by omega⟩
      · exact Or.inr ⟨unix, Or.inl (by omega)⟩
      · exact Or.inr ⟨unix, Or.inr ⟨⟨by omega, by omega⟩, wide⟩⟩

/-- With a carriage return or a line feed something is detected. -/
theorem exists_detects (positive : 0 < chunkSize) (some_end : decision bytes ≠ none) :
    ∃ ending, Detects chunkSize schedule calls bytes ending := by
  induction size : bytes.length using Nat.strongRecOn generalizing bytes calls with
  | ind size induction =>
      cases decided : decision (bytes.take (min chunkSize (max 1 (schedule calls)))) with
      | some ending => exact ⟨ending, .here decided⟩
      | none =>
          have free := decision_none_iff.mp decided
          have behind : decision (bytes.drop (min chunkSize (max 1 (schedule calls)))) ≠ none := by
            intro nothing
            have rest := decision_none_iff.mp nothing
            apply some_end
            rw [decision_none_iff, ← List.take_append_drop
              (min chunkSize (max 1 (schedule calls))) bytes, List.mem_append, List.mem_append]
            exact ⟨fun either => either.elim free.1 rest.1, fun either => either.elim free.2 rest.2⟩
          have bytesLeft : bytes ≠ [] := by
            intro empty
            rw [empty] at some_end
            exact some_end rfl
          have shorter := List.length_pos_of_ne_nil bytesLeft
          rcases induction _ (by rw [List.length_drop]; omega) behind rfl with ⟨ending, detects⟩
          exact ⟨ending, .later decided detects⟩

/-- A piece of two bytes that starts with the first carriage return. -/
theorem detects_pair {k : Nat} (wide : 2 ≤ chunkSize) (cr : bytes.findIdx (· == 13) = k)
    (lf : bytes.findIdx (· == 10) = k + 1) (inside : k + 1 < bytes.length)
    (single : ∀ i < k, schedule (calls + i) = 1) (pair : schedule (calls + k) = 2) :
    Detects chunkSize schedule calls bytes 10 := by
  induction k generalizing bytes calls with
  | zero =>
      have two : min chunkSize (max 1 (schedule calls)) = 2 := by
        rw [Nat.add_zero] at pair
        omega
      apply Detects.here
      rw [two]
      match bytes with
      | [] => exact absurd inside (Nat.not_lt_zero _)
      | [_] => exact absurd inside (Nat.lt_irrefl 1)
      | first :: second :: more =>
          have isCr : first = 13 := by
            simpa [List.findIdx_cons, cond_eq_ite] using cr
          have isLf : second = 10 := by
            simpa [List.findIdx_cons, cond_eq_ite, isCr] using lf
          rw [isCr, isLf]
          rfl
  | succ k induction =>
      have one : min chunkSize (max 1 (schedule calls)) = 1 := by
        have first := single 0 (Nat.succ_pos k)
        rw [Nat.add_zero] at first
        omega
      match bytes with
      | [] => exact absurd inside (Nat.not_lt_zero _)
      | first :: more =>
          have noCr : first ≠ 13 := by
            intro isCr
            simp [isCr, List.findIdx_cons] at cr
          have noLf : first ≠ 10 := by
            intro isLf
            simp [isLf, List.findIdx_cons] at lf
          apply Detects.later
          · rw [one, decision_none_iff]
            simp [noCr.symm, noLf.symm]
          · rw [one]
            simp only [List.findIdx_cons, beq_eq_false_iff_ne.mpr noCr,
              beq_eq_false_iff_ne.mpr noLf, cond_false, Nat.add_right_cancel_iff] at cr lf
            apply induction cr lf (Nat.lt_of_succ_lt_succ inside)
            · intro i below
              rw [Nat.add_right_comm, Nat.add_assoc]
              exact single (i + 1) (Nat.succ_lt_succ below)
            · rw [Nat.add_right_comm, Nat.add_assoc]
              exact pair

end Pieces

namespace PhpStream

variable {s t : PhpStream} {ending : UInt8}

/-- What decides how lines end is still to come, or nothing is. -/
def Later (s : PhpStream) (ending : UInt8) : Prop :=
  Detects s.chunkSize s.schedule s.calls s.rest ending ∨
    decision s.rest = none ∧ (ending = 13 ∨ ending = 10)

/-- Lines end with `ending` from here on, by the flags or by what the source gives. -/
inductive Leads (ending : UInt8) (s : PhpStream) : Prop
  | known : s.detectEol = false → ending = (if s.eolMac then 13 else 10) → Leads ending s
  | pending : s.detectEol = true → s.eolMac = false →
      (s.readbuf = [] ∨ s.readbuf.length = s.chunkSize) →
      (decision s.window = some ending ∨ decision s.window = none ∧ s.Later ending) →
      Leads ending s

/-- The search with the flag for detection, in terms of the decision. -/
theorem locateEol_detecting (detecting : s.detectEol = true) :
    s.locateEol = match decision s.window with
      | none => (none, s)
      | some ending => (s.window.findIdx? (· == ending),
          if ending = 13 then { s with detectEol := false, eolMac := true }
          else { s with detectEol := false }) := by
  rw [locateEol, if_pos detecting, decision]
  cases cr : s.window.findIdx? (· == 13) with
  | none =>
      cases lf : s.window.findIdx? (· == 10) with
      | none => rfl
      | some lf => simp [lf]
  | some cr =>
      cases lf : s.window.findIdx? (· == 10) with
      | none => simp [cr]
      | some lf =>
          dsimp only
          split_ifs <;> simp_all

theorem Later.ending_eq (later : s.Later ending) : ending = 13 ∨ ending = 10 := by
  rcases later with detects | nothing
  · exact detects.cases.imp And.left And.left
  · exact nothing.2

/-- A buffer that is empty, and new or as long as a chunk, is filled from its start. -/
theorem refill_tight {b : ReadBuffer} (valid : b.Valid) (chunk : 0 < b.chunkSize)
    (tight : b.readbuf = [] ∨ b.readbuf.length = b.chunkSize) (empty : b.buffered = 0) :
    (b.reduce.grow b.chunkSize).readbuf.length = b.chunkSize ∧
      (b.reduce.grow b.chunkSize).writepos = 0 := by
  have order := valid.order
  have bound := valid.bound
  rw [ReadBuffer.buffered] at empty
  rw [ReadBuffer.reduce]
  split
  · rename_i moves
    have size : (b.readbuf.drop b.readpos ++
        b.readbuf.drop (b.readbuf.length - b.readpos)).length = b.readbuf.length := by
      simp only [List.length_append, List.length_drop]
      omega
    have full := tight.resolve_left moves.1
    rw [ReadBuffer.grow, ReadBuffer.room, if_neg (by dsimp only; omega)]
    exact ⟨size.trans full, empty⟩
  · rename_i stays
    rw [ReadBuffer.grow]
    rcases tight with new | full
    · rw [new, List.length_nil] at bound
      simp [ReadBuffer.room, new, chunk]
      omega
    · have free : ¬ b.room < b.chunkSize := fun small =>
        stays ⟨List.ne_nil_of_length_pos (full ▸ chunk), small⟩
      rw [if_neg free]
      rw [ReadBuffer.room] at free
      omega

/-- A refill of an empty buffer gives the next piece of the source. -/
theorem fill_tight {needs : Nat} (sound : s.unflagged.Sound)
    (tight : s.readbuf = [] ∨ s.readbuf.length = s.chunkSize) (empty : s.buffered = 0)
    (needed : 0 < needs) :
    ∃ buffer : ReadBuffer, buffer.chunkSize = s.chunkSize ∧
      buffer.readbuf.length = s.chunkSize ∧
      buffer.window = s.rest.take (min s.chunkSize (max 1 (s.schedule s.calls))) ∧
      s.fillReadBuffer needs =
        { s with
          toReadBuffer := buffer
          rest := s.rest.drop (min s.chunkSize (max 1 (s.schedule s.calls)))
          eof := s.eof || s.rest.isEmpty
          calls := s.calls + 1 } := by
  have now : s.toReadBuffer.Valid := sound.toValid
  rcases now.refill with ⟨valid, same, _⟩
  rcases refill_tight now sound.chunk tight empty with ⟨size, front⟩
  have room : (s.reduce.grow s.chunkSize).room = s.chunkSize := by
    rw [ReadBuffer.room, size, front, Nat.sub_zero]
  have noWindow : s.window = [] :=
    List.eq_nil_of_length_eq_zero (now.window_length.trans empty)
  refine ⟨(s.reduce.grow s.chunkSize).receive (s.opsRead s.chunkSize).1,
    ReadBuffer.chunkSize_refill, ?_, ?_, ?_⟩
  · have short := @opsRead_length_le s s.chunkSize
    simp only [ReadBuffer.receive, List.length_append, List.length_take, List.length_drop, front]
    omega
  · rw [valid.receive.2, same, noWindow]
    rfl
  · rw [fillReadBuffer, if_pos (empty ▸ needed)]
    simp only [room, opsRead, List.length_take, ← List.drop_eq_drop_min]

theorem Leads.locates (leads : s.Leads ending) :
    s.locateEol.1 = s.window.findIdx? (· == ending) := by
  cases leads with
  | known decided equal =>
      rw [locateEol, if_neg (by simp [decided]), equal]
      cases s.eolMac <;> rfl
  | pending detecting _ _ window =>
      rw [locateEol_detecting detecting]
      rcases window with decided | ⟨nothing, later⟩
      · rw [decided]
      · rw [nothing]
        have free := decision_none_iff.mp nothing
        rcases later.ending_eq with mac | unix
        · rw [mac]
          exact (findIdx?_eq_none.mpr free.1).symm
        · rw [unix]
          exact (findIdx?_eq_none.mpr free.2).symm

theorem Leads.consumes (leads : s.Leads ending) (n : Nat) :
    ((s.locateEol.2.advance n).count n).Leads ending := by
  cases leads with
  | known decided equal =>
      have stays : s.locateEol.2 = s := by
        rw [locateEol, if_neg (by simp [decided])]
        cases s.eolMac <;> rfl
      rw [stays]
      exact .known decided equal
  | pending detecting plain tight window =>
      rw [locateEol_detecting detecting]
      rcases window with decided | ⟨nothing, later⟩
      · rw [decided]
        dsimp only
        rcases decision_some decided with mac | unix
        · rw [if_pos mac]
          exact .known rfl mac
        · rw [if_neg (by rw [unix]; decide)]
          refine .known rfl ?_
          change ending = if s.eolMac = true then 13 else 10
          rw [plain]
          exact unix
      · rw [nothing]
        refine .pending detecting plain tight (Or.inr ⟨?_, later⟩)
        have dropped : ((s.advance n).count n).window = s.window.drop n := advance_window
        exact decision_none_of_subset nothing (dropped ▸ List.drop_subset n s.window)

/-- The flags are left as they are by a refill. -/
theorem fill_flags (needs : Nat) :
    (s.fillReadBuffer needs).detectEol = s.detectEol ∧
      (s.fillReadBuffer needs).eolMac = s.eolMac := by
  rw [fillReadBuffer]
  split
  · exact ⟨rfl, rfl⟩
  · exact ⟨rfl, rfl⟩

theorem Leads.fills (leads : s.Leads ending) (needs : Nat) (sound : s.unflagged.Sound)
    (empty : s.buffered = 0) : (s.fillReadBuffer needs).Leads ending := by
  cases leads with
  | known decided equal =>
      have flags := @fill_flags s needs
      exact .known (flags.1.trans decided) (by rw [flags.2]; exact equal)
  | pending detecting plain tight window =>
      by_cases needed : 0 < needs
      · rcases fill_tight sound tight empty needed with ⟨buffer, chunk, size, piece, fills⟩
        have noWindow : s.window = [] :=
          List.eq_nil_of_length_eq_zero (sound.window_length.trans empty)
        rw [noWindow] at window
        have later : s.Later ending := (window.resolve_left nofun).2
        have flags := @fill_flags s needs
        refine .pending (flags.1.trans detecting) (flags.2.trans plain) ?_ ?_
        · rw [fills]
          exact Or.inr (size.trans chunk.symm)
        · rw [fills, piece]
          rcases later with detects | ⟨free, either⟩
          · cases detects with
            | here decided => exact Or.inl decided
            | later nothing detects =>
                refine Or.inr ⟨nothing, Or.inl ?_⟩
                rw [chunk]
                exact detects
          · exact Or.inr ⟨decision_none_of_subset free (List.take_subset _ _),
              Or.inr ⟨decision_none_of_subset free (List.drop_subset _ _), either⟩⟩
      · have stays : s.fillReadBuffer needs = s := if_neg (by omega)
        rw [stays]
        exact .pending detecting plain tight window

theorem follows_leads : Follows ending (Leads ending) :=
  ⟨fun _ leads => leads.locates, fun _ n leads => leads.consumes n,
    fun _ needs sound leads empty => leads.fills needs sound empty⟩

end PhpStream

/-! ## All lines -/

open PhpStream

/-- The lines of `bytes` that end with `ending`, each with its maximal length. -/
def splitLines (ending : UInt8) : List UInt8 → List (Option Nat) → List (Option (List UInt8))
  | _, [] => []
  | bytes, maxlen :: more =>
      orNull (bytes.take (lineLengthBy ending bytes maxlen)) ::
        splitLines ending (bytes.drop (lineLengthBy ending bytes maxlen)) more

/-- A new stream with `PHP_STREAM_FLAG_DETECT_EOL`. -/
def detecting (data : List UInt8) (schedule : Nat → Nat) (chunkSize : Nat)
    (noBuffer plainFiles : Bool) : PhpStream :=
  { opened data schedule chunkSize noBuffer plainFiles with detectEol := true }

theorem Leads.lines {s : PhpStream} {ending : UInt8} (leads : s.Leads ending)
    (sound : s.unflagged.Sound) (maxlens : List (Option Nat)) :
    repeated getLine s maxlens = some (splitLines ending s.ahead maxlens) := by
  induction maxlens generalizing s with
  | nil => rfl
  | cons maxlen more induction =>
      rcases follows_leads.getLine sound leads maxlen with ⟨t, runs, moves, next⟩
      have left : t.ahead = s.ahead.drop (lineLengthBy ending s.ahead maxlen) := by
        have split : s.ahead = s.ahead.take (lineLengthBy ending s.ahead maxlen) ++ t.ahead :=
          moves.ahead
        exact List.append_cancel_left (split.symm.trans (List.take_append_drop _ s.ahead).symm)
      rw [splitLines, ← left]
      exact repeated_cons runs (induction next moves.sound)

section Schedules

variable {data : List UInt8} {schedule : Nat → Nat} {chunkSize : Nat} {noBuffer plainFiles : Bool}
  {maxlens : List (Option Nat)} {ending : UInt8}

/-- What is decided by the schedule is how all lines end. -/
theorem lines_detecting (positive : 0 < chunkSize)
    (later : (detecting data schedule chunkSize noBuffer plainFiles).Later ending) :
    repeated getLine (detecting data schedule chunkSize noBuffer plainFiles) maxlens =
      some (splitLines ending data maxlens) := by
  apply Leads.lines (.pending rfl rfl (Or.inl rfl) (Or.inr ⟨rfl, later⟩))
  exact @opened_sound data schedule chunkSize noBuffer plainFiles positive

/-- With a line feed in the data something is decided. -/
theorem exists_detecting (positive : 0 < chunkSize) (some_end : decision data ≠ none) :
    ∃ ending, Detects chunkSize schedule 0 data ending ∧
      repeated getLine (detecting data schedule chunkSize noBuffer plainFiles) maxlens =
        some (splitLines ending data maxlens) := by
  rcases @exists_detects chunkSize 0 schedule data positive some_end with ⟨ending, detects⟩
  exact ⟨ending, detects, lines_detecting positive (Or.inl detects)⟩

/-- Single bytes decide for carriage returns. -/
theorem detects_single (crLf : CrLf data) (positive : 0 < chunkSize) :
    Detects chunkSize (fun _ => 1) 0 data 13 := by
  have some_end : decision data ≠ none := by
    intro free
    rcases List.findIdx_lt_length.mp crLf.2 with ⟨other, member, equal⟩
    exact (decision_none_iff.mp free).2 (beq_iff_eq.mp equal ▸ member)
  rcases @exists_detects chunkSize 0 (fun _ => 1) data positive some_end with ⟨ending, detects⟩
  rcases detects.cases with mac | ⟨_, before | ⟨_, call, wide⟩⟩
  · exact mac.1 ▸ detects
  · have behind := crLf.1
    omega
  · omega

end Schedules

/-- The lines are the same for all schedules exactly if the data does not have its first line
feed right behind its first carriage return, or the two cannot be in one window, or the calls
do not tell the two ways to end a line apart. -/
theorem lines_detecting_iff (data : List UInt8) (chunkSize : Nat) (noBuffer plainFiles : Bool)
    (positive : 0 < chunkSize) (maxlens : List (Option Nat)) :
    (∃ lines, ∀ schedule,
        repeated getLine (detecting data schedule chunkSize noBuffer plainFiles) maxlens =
          some lines) ↔
      (CrLf data → 2 ≤ chunkSize → splitLines 13 data maxlens = splitLines 10 data maxlens) := by
  constructor
  · rintro ⟨lines, same⟩ crLf wide
    have mac := @lines_detecting data (fun _ => 1) chunkSize noBuffer plainFiles maxlens 13 positive
      (Or.inl (detects_single crLf positive))
    have pair : Detects chunkSize (fun call => if call = data.findIdx (· == 13) then 2 else 1) 0
        data 10 := by
      apply detects_pair wide rfl crLf.1 (crLf.1 ▸ crLf.2)
      · intro i below
        rw [Nat.zero_add, if_neg (Nat.ne_of_lt below)]
      · rw [Nat.zero_add, if_pos rfl]
    have unix := @lines_detecting data _ chunkSize noBuffer plainFiles maxlens 10 positive
      (Or.inl pair)
    exact Option.some.inj ((mac.symm.trans (same _)).trans ((same _).symm.trans unix))
  · intro agree
    by_cases free : decision data = none
    · exact ⟨_, fun schedule => lines_detecting positive (Or.inr ⟨free, Or.inr rfl⟩)⟩
    by_cases order : data.findIdx (· == 13) < data.findIdx (· == 10)
    · -- only a line feed right behind the carriage return is a reason to end lines with it
      refine ⟨splitLines 13 data maxlens, fun schedule => ?_⟩
      rcases @exists_detecting data schedule chunkSize noBuffer plainFiles maxlens positive
        free with ⟨ending, detects, lines⟩
      rw [lines]
      rcases detects.cases with mac | ⟨unix, before | ⟨crLf, call, wide⟩⟩
      · rw [mac.1]
      · omega
      · rw [unix, agree crLf (by omega)]
    · refine ⟨splitLines 10 data maxlens, fun schedule => ?_⟩
      rcases @exists_detecting data schedule chunkSize noBuffer plainFiles maxlens positive
        free with ⟨ending, detects, lines⟩
      rw [lines]
      rcases detects.cases with mac | unix
      · exact absurd mac.2 order
      · rw [unix.1]

/-- Lines that end with a line feed alone. -/
theorem lines_detecting_iff_unix :
    ∃ lines, ∀ schedule,
      repeated getLine (detecting [97, 10, 98, 13, 10] schedule 4 false false) [none, none] =
        some lines :=
  (lines_detecting_iff [97, 10, 98, 13, 10] 4 false false (by decide) [none, none]).mpr
    (fun crLf => absurd crLf.1 (by decide))

/-- A carriage return at the end of the first window hides the line feed behind it. -/
theorem lines_detecting_differ :
    repeated getLine (detecting [97, 13, 10, 98] (fun _ => 2) 4 false false) [none, none] =
        some [some [97, 13], some [10, 98]] ∧
      repeated getLine (detecting [97, 13, 10, 98] (fun _ => 4) 4 false false) [none, none] =
        some [some [97, 13, 10], some [98]] := by
  decide

end PhpRuntime.Streams
