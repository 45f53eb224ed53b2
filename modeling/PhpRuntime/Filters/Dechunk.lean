import PhpRuntime.Foundation.CString
import PhpRuntime.Foundation.Transducer

/-! # The `dechunk` filter

`php_dechunk` of `ext/standard/filters.c`. The position `p` is the part of the buffer from there
to its end. The output goes to the front of the same buffer, but never gets ahead of `p`
(`phpDechunk_behind`), so that it is a list of its own here.

The cases of the `switch` fall through, and the state is recorded only when a buffer ends. All
the same the function is a machine that reads one byte at a time.
-/

namespace PhpRuntime.Filters

open CString Decimal Transducer

/-! ## The function -/

/-- `php_chunked_filter_state` -/
inductive ChunkState
  | sizeStart
  | size
  | sizeExt
  | sizeCr
  | sizeLf
  | body
  | bodyCr
  | bodyLf
  | trailer
  | error
  deriving DecidableEq

/-- `php_chunked_filter_data` -/
structure ChunkedData where
  state : ChunkState
  chunkSize : Nat

/-- How a round of the loop ends, with the output of the round. -/
inductive Flow
  | again (data : ChunkedData) (p out : List UInt8)
  | stop (data : ChunkedData) (out : List UInt8)

def Flow.behind (front : List UInt8) : Flow → Flow
  | again data p out => again data p (front ++ out)
  | stop data out => stop data (front ++ out)

def caseBodyLf (data : ChunkedData) (p : List UInt8) : Flow :=
  if p.head? = some lf then
    .again { data with state := .sizeStart } p.tail []
  else
    .again { data with state := .error } p []

def caseBodyCr (data : ChunkedData) (p : List UInt8) : Flow :=
  if p.head? = some cr then
    if p.tail = [] then .stop { data with state := .bodyLf } []
    else caseBodyLf data p.tail
  else
    caseBodyLf data p

def caseBody (data : ChunkedData) (p : List UInt8) : Flow :=
  if data.chunkSize ≤ p.length then
    if data.chunkSize = p.length then .stop { data with state := .bodyCr } p
    else (caseBodyCr data (p.drop data.chunkSize)).behind (p.take data.chunkSize)
  else
    .stop { state := .body, chunkSize := data.chunkSize - p.length } p

def caseSizeLf (data : ChunkedData) (p : List UInt8) : Flow :=
  if p.head? = some lf then
    if data.chunkSize = 0 then .again { data with state := .trailer } p.tail []
    else if p.tail = [] then .stop { data with state := .body } []
    else caseBody data p.tail
  else
    .again { data with state := .error } p []

def caseSizeCr (data : ChunkedData) (p : List UInt8) : Flow :=
  if p.head? = some cr then
    if p.tail = [] then .stop { data with state := .sizeLf } []
    else caseSizeLf data p.tail
  else
    caseSizeLf data p

/-- A byte of an extension. -/
def isExt (c : UInt8) : Bool := c != cr && c != lf

def caseSizeExt (data : ChunkedData) (p : List UInt8) : Flow :=
  let p := p.dropWhile isExt
  if p = [] then .stop data [] else caseSizeCr data p

def addDigit (number digit : Nat) : Nat := (number * 16 + digit) % 2 ^ 64

/-- The loop over the digits. -/
def sizeLoop (data : ChunkedData) : List UInt8 → ChunkedData × List UInt8
  | [] => (data, [])
  | c :: rest =>
      match hexDigit c with
      | some digit =>
          sizeLoop { state := .size, chunkSize := addDigit data.chunkSize digit } rest
      | none =>
          if data.state = .sizeStart then ({ data with state := .error }, c :: rest)
          else ({ data with state := .sizeExt }, c :: rest)

def caseSize (data : ChunkedData) (p : List UInt8) : Flow :=
  let (data, p) := sizeLoop data p
  if data.state = .error then .again data p []
  else if p = [] then .stop data []
  else caseSizeExt data p

/-- The `switch` -/
def switch (data : ChunkedData) (p : List UInt8) : Flow :=
  match data.state with
  | .sizeStart => caseSize { data with chunkSize := 0 } p
  | .size => caseSize data p
  | .sizeExt => caseSizeExt data p
  | .sizeCr => caseSizeCr data p
  | .sizeLf => caseSizeLf data p
  | .body => caseBody data p
  | .bodyCr => caseBodyCr data p
  | .bodyLf => caseBodyLf data p
  | .trailer => .again data [] []
  | .error => .stop data p

/-- The loop. A round takes a byte or more, or finds an error. -/
def dechunkLoop : Nat → ChunkedData → List UInt8 → ChunkedData × List UInt8
  | 0, data, _ => (data, [])
  | fuel + 1, data, p =>
      if p = [] then
        (data, [])
      else
        match switch data p with
        | .again data p out =>
            let (data, more) := dechunkLoop fuel data p
            (data, out ++ more)
        | .stop data out => (data, out)

/-- `php_dechunk`, with its output -/
def phpDechunk (data : ChunkedData) (buf : List UInt8) : ChunkedData × List UInt8 :=
  dechunkLoop (buf.length + 1) data buf

/-- Buffers one after the other. -/
def dechunkAll : ChunkedData → List (List UInt8) → ChunkedData × List UInt8
  | data, [] => (data, [])
  | data, buf :: bufs =>
      let (data, out) := phpDechunk data buf
      let (data, more) := dechunkAll data bufs
      (data, out ++ more)

def chunkedStart : ChunkedData := ⟨.sizeStart, 0⟩

/-! ## One byte at a time -/

/-- What the bytes so far have led to. In `body` there is one more byte to come than told. -/
inductive Mode
  | start
  | size (number : Nat)
  | ext (number : Nat)
  | sizeCr (number : Nat)
  | sizeLf (number : Nat)
  | body (left : Nat)
  | bodyCr
  | bodyLf
  | trailer
  | error

/-- Some bytes of a body are still to come. -/
def bodyOf : Nat → Mode
  | 0 => .bodyCr
  | left + 1 => .body left

/-- Behind the line of a chunk size. -/
def afterLine : Nat → Mode
  | 0 => .trailer
  | left + 1 => .body left

def feedLf (number : Nat) (c : UInt8) : Mode × List UInt8 :=
  if c = lf then (afterLine number, []) else (.error, [c])

def feedCr (number : Nat) (c : UInt8) : Mode × List UInt8 :=
  if c = cr then (.sizeLf number, []) else feedLf number c

def feedExt (number : Nat) (c : UInt8) : Mode × List UInt8 :=
  if isExt c then (.ext number, []) else feedCr number c

def feedBodyLf (c : UInt8) : Mode × List UInt8 :=
  if c = lf then (.start, []) else (.error, [c])

def feed : Mode → UInt8 → Mode × List UInt8
  | .start, c =>
      match hexDigit c with
      | some digit => (.size (addDigit 0 digit), [])
      | none => (.error, [c])
  | .size number, c =>
      match hexDigit c with
      | some digit => (.size (addDigit number digit), [])
      | none => feedExt number c
  | .ext number, c => feedExt number c
  | .sizeCr number, c => feedCr number c
  | .sizeLf number, c => feedLf number c
  | .body left, c => (bodyOf left, [c])
  | .bodyCr, c => if c = cr then (.bodyLf, []) else feedBodyLf c
  | .bodyLf, c => feedBodyLf c
  | .trailer, _ => (.trailer, [])
  | .error, c => (.error, [c])

/-- The chunk size counts only where it is still used. -/
def ChunkedData.mode (data : ChunkedData) : Mode :=
  match data.state with
  | .sizeStart => .start
  | .size => .size data.chunkSize
  | .sizeExt => .ext data.chunkSize
  | .sizeCr => .sizeCr data.chunkSize
  | .sizeLf => .sizeLf data.chunkSize
  | .body => bodyOf data.chunkSize
  | .bodyCr => .bodyCr
  | .bodyLf => .bodyLf
  | .trailer => .trailer
  | .error => .error

/-! ## The cases of the switch -/

/-- What is left to do at the end of a round, done by the machine. -/
def Flow.meaning : Flow → Mode × List UInt8
  | again data p out => ((run feed data.mode p).1, out ++ (run feed data.mode p).2)
  | stop data out => (data.mode, out)

theorem Flow.meaning_behind (front : List UInt8) (flow : Flow) :
    (flow.behind front).meaning = (flow.meaning.1, front ++ flow.meaning.2) := by
  cases flow with
  | again data p out => simp [behind, meaning]
  | stop data out => rfl

theorem run_error (text : List UInt8) : run feed .error text = (.error, text) := by
  induction text with
  | nil => rfl
  | cons c rest induction =>
      rw [run_cons]
      simp [feed, induction]

theorem run_trailer (text : List UInt8) : run feed .trailer text = (.trailer, []) := by
  induction text with
  | nil => rfl
  | cons c rest induction =>
      rw [run_cons]
      simp [feed, induction]

/-- An error at the next byte. -/
theorem meaning_error {size : Nat} {mode : Mode} {c : UInt8} {rest : List UInt8}
    (fails : feed mode c = (.error, [c])) :
    (Flow.again ⟨.error, size⟩ (c :: rest) []).meaning = run feed mode (c :: rest) := by
  have isError : (⟨.error, size⟩ : ChunkedData).mode = .error := rfl
  rw [Flow.meaning, isError, run_error, run_cons, fails, run_error]
  rfl

theorem meaning_bodyLf (data : ChunkedData) {p : List UInt8} (nonempty : p ≠ []) :
    (caseBodyLf data p).meaning = run feed .bodyLf p := by
  cases p with
  | nil => exact absurd rfl nonempty
  | cons c rest =>
      rw [caseBodyLf]
      split_ifs with isLf
      · have silent : feed .bodyLf c = (.start, []) := by
          rw [feed, feedBodyLf, if_pos (Option.some.inj isLf)]
        rw [run_silent silent]
        rfl
      · exact meaning_error
          (by rw [feed, feedBodyLf, if_neg fun equal => isLf (congrArg some equal)])

theorem meaning_bodyCr (data : ChunkedData) {p : List UInt8} (nonempty : p ≠ []) :
    (caseBodyCr data p).meaning = run feed .bodyCr p := by
  cases p with
  | nil => exact absurd rfl nonempty
  | cons c rest =>
      rw [caseBodyCr]
      split_ifs with isCr atEnd
      · have silent : feed .bodyCr c = (.bodyLf, []) := by
          rw [feed, if_pos (Option.some.inj isCr)]
        have last : rest = [] := atEnd
        rw [run_silent silent, last]
        rfl
      · have silent : feed .bodyCr c = (.bodyLf, []) := by
          rw [feed, if_pos (Option.some.inj isCr)]
        rw [run_silent silent]
        exact meaning_bodyLf data atEnd
      · have same : feed .bodyCr c = feed .bodyLf c := by
          rw [feed, if_neg fun equal => isCr (congrArg some equal), feed]
        rw [run_congr same]
        exact meaning_bodyLf data (List.cons_ne_nil c rest)

/-- The bytes of a body. -/
theorem run_bodyOf (left : Nat) (p : List UInt8) :
    run feed (bodyOf left) p =
      if left ≤ p.length then
        ((run feed .bodyCr (p.drop left)).1, p.take left ++ (run feed .bodyCr (p.drop left)).2)
      else
        (bodyOf (left - p.length), p) := by
  induction p generalizing left with
  | nil =>
      cases left with
      | zero => rfl
      | succ left => rfl
  | cons c rest induction =>
      cases left with
      | zero => rfl
      | succ left =>
          have first : run feed (bodyOf (left + 1)) (c :: rest) =
              ((run feed (bodyOf left) rest).1, c :: (run feed (bodyOf left) rest).2) := rfl
          rw [first, induction left]
          by_cases inside : left ≤ rest.length
          · have within : left + 1 ≤ (c :: rest).length := Nat.succ_le_succ inside
            rw [if_pos inside, if_pos within]
            rfl
          · have outside : ¬ left + 1 ≤ (c :: rest).length := fun le =>
              inside (Nat.le_of_succ_le_succ le)
            rw [if_neg inside, if_neg outside, List.length_cons, Nat.add_sub_add_right]

theorem meaning_body (data : ChunkedData) (p : List UInt8) :
    (caseBody data p).meaning = run feed (bodyOf data.chunkSize) p := by
  rw [caseBody, run_bodyOf]
  split_ifs with inside whole
  · rw [whole, List.drop_length, List.take_length]
    simp [Flow.meaning, ChunkedData.mode]
  · have nonempty : p.drop data.chunkSize ≠ [] := by
      rw [Ne, List.drop_eq_nil_iff]
      omega
    rw [Flow.meaning_behind, meaning_bodyCr data nonempty]
  · rfl

theorem meaning_sizeLf (data : ChunkedData) {p : List UInt8} (nonempty : p ≠ []) :
    (caseSizeLf data p).meaning = run feed (.sizeLf data.chunkSize) p := by
  cases p with
  | nil => exact absurd rfl nonempty
  | cons c rest =>
      rw [caseSizeLf]
      split_ifs with isLf last atEnd
      · have silent : feed (.sizeLf data.chunkSize) c = (.trailer, []) := by
          rw [feed, feedLf, if_pos (Option.some.inj isLf), last]
          rfl
        rw [run_silent silent]
        rfl
      all_goals
        have silent (isLf : (c :: rest).head? = some lf) (more : data.chunkSize ≠ 0) :
            feed (.sizeLf data.chunkSize) c = (bodyOf data.chunkSize, []) := by
          rw [feed, feedLf, if_pos (Option.some.inj isLf)]
          cases size : data.chunkSize with
          | zero => exact absurd size more
          | succ left => rfl
      · have empty : rest = [] := atEnd
        rw [run_silent (silent isLf last), empty]
        rfl
      · rw [run_silent (silent isLf last)]
        exact meaning_body data rest
      · exact meaning_error (by rw [feed, feedLf, if_neg fun equal => isLf (congrArg some equal)])

theorem meaning_sizeCr (data : ChunkedData) {p : List UInt8} (nonempty : p ≠ []) :
    (caseSizeCr data p).meaning = run feed (.sizeCr data.chunkSize) p := by
  cases p with
  | nil => exact absurd rfl nonempty
  | cons c rest =>
      have silent (isCr : (c :: rest).head? = some cr) :
          feed (.sizeCr data.chunkSize) c = (.sizeLf data.chunkSize, []) := by
        rw [feed, feedCr, if_pos (Option.some.inj isCr)]
      rw [caseSizeCr]
      split_ifs with isCr atEnd
      · have last : rest = [] := atEnd
        rw [run_silent (silent isCr), last]
        rfl
      · rw [run_silent (silent isCr)]
        exact meaning_sizeLf data atEnd
      · have same : feed (.sizeCr data.chunkSize) c = feed (.sizeLf data.chunkSize) c := by
          rw [feed, feedCr, if_neg fun equal => isCr (congrArg some equal), feed]
        rw [run_congr same]
        exact meaning_sizeLf data (List.cons_ne_nil c rest)

theorem meaning_sizeExt {data : ChunkedData} (state : data.state = .sizeExt) (p : List UInt8) :
    (caseSizeExt data p).meaning = run feed (.ext data.chunkSize) p := by
  have isMode : data.mode = .ext data.chunkSize := by rw [ChunkedData.mode, state]
  induction p with
  | nil =>
      rw [caseSizeExt, List.dropWhile_nil, if_pos rfl, Flow.meaning, isMode]
      rfl
  | cons c rest induction =>
      by_cases skips : isExt c = true
      · have silent : feed (.ext data.chunkSize) c = (.ext data.chunkSize, []) := by
          rw [feed, feedExt, if_pos skips]
        rw [run_silent silent, ← induction, caseSizeExt, caseSizeExt,
          List.dropWhile_cons_of_pos skips]
      · have same : feed (.ext data.chunkSize) c = feed (.sizeCr data.chunkSize) c := by
          rw [feed, feedExt, if_neg skips, feed]
        rw [run_congr same, caseSizeExt, List.dropWhile_cons_of_neg skips,
          if_neg (List.cons_ne_nil c rest)]
        exact meaning_sizeCr data (List.cons_ne_nil c rest)

theorem meaning_size {data : ChunkedData} (state : data.state = .size) (p : List UInt8) :
    (caseSize data p).meaning = run feed (.size data.chunkSize) p := by
  induction p generalizing data with
  | nil => simp [caseSize, sizeLoop, state, Flow.meaning, ChunkedData.mode]
  | cons c rest induction =>
      cases isDigit : hexDigit c with
      | some digit =>
          have silent : feed (.size data.chunkSize) c =
              (.size (addDigit data.chunkSize digit), []) := by
            rw [feed, isDigit]
          have tail := @induction ⟨.size, addDigit data.chunkSize digit⟩ rfl
          rw [run_silent silent, ← tail, caseSize, caseSize, sizeLoop, isDigit]
      | none =>
          have same : feed (.size data.chunkSize) c = feed (.ext data.chunkSize) c := by
            rw [feed, isDigit, feed]
          rw [run_congr same, caseSize, sizeLoop, isDigit]
          simp only [state]
          exact meaning_sizeExt rfl (c :: rest)

theorem meaning_sizeStart {p : List UInt8} (nonempty : p ≠ []) :
    (caseSize ⟨.sizeStart, 0⟩ p).meaning = run feed .start p := by
  cases p with
  | nil => exact absurd rfl nonempty
  | cons c rest =>
      cases isDigit : hexDigit c with
      | some digit =>
          have silent : feed .start c = (.size (addDigit 0 digit), []) := by
            rw [feed, isDigit]
          have tail := @meaning_size ⟨.size, addDigit 0 digit⟩ rfl rest
          rw [run_silent silent, ← tail, caseSize, caseSize, sizeLoop, isDigit]
      | none =>
          rw [caseSize, sizeLoop, isDigit]
          exact meaning_error (by rw [feed, isDigit])

/-- A round does what the machine does with the rest of the buffer. -/
theorem meaning_switch (data : ChunkedData) {p : List UInt8} (nonempty : p ≠ []) :
    (switch data p).meaning = run feed data.mode p := by
  rcases data with ⟨state, chunkSize⟩
  cases state with
  | sizeStart => exact meaning_sizeStart nonempty
  | size => exact meaning_size rfl p
  | sizeExt => exact meaning_sizeExt rfl p
  | sizeCr => exact meaning_sizeCr _ nonempty
  | sizeLf => exact meaning_sizeLf _ nonempty
  | body => exact meaning_body _ p
  | bodyCr => exact meaning_bodyCr _ nonempty
  | bodyLf => exact meaning_bodyLf _ nonempty
  | trailer => exact (run_trailer p).symm
  | error => exact (run_error p).symm

/-! ## The loop -/

/-- A round that goes on has taken bytes, or found an error. -/
def Flow.Advances (p : List UInt8) : Flow → Prop
  | again data rest _ => rest.length < p.length ∨ data.state = .error ∧ rest.length ≤ p.length
  | stop _ _ => True

section Advances

variable {p q : List UInt8} {flow : Flow}

theorem Flow.Advances.mono (advances : flow.Advances q) (shorter : q.length ≤ p.length) :
    flow.Advances p := by
  cases flow with
  | again data rest out =>
      exact advances.imp (fun less => less.trans_le shorter)
        (And.imp_right fun less => less.trans shorter)
  | stop data out => trivial

theorem Flow.Advances.behind (advances : flow.Advances p) (front : List UInt8) :
    (flow.behind front).Advances p := by
  cases flow with
  | again data rest out => exact advances
  | stop data out => trivial

theorem length_tail_lt {c : UInt8} (first : p.head? = some c) : p.tail.length < p.length := by
  cases p with
  | nil => cases first
  | cons c rest => exact Nat.lt_succ_self _

end Advances

section Cases

variable (data : ChunkedData) (p : List UInt8)

theorem advances_bodyLf : (caseBodyLf data p).Advances p := by
  rw [caseBodyLf]
  split_ifs with first
  · exact Or.inl (length_tail_lt first)
  · exact Or.inr ⟨rfl, Nat.le_refl _⟩

theorem advances_bodyCr : (caseBodyCr data p).Advances p := by
  rw [caseBodyCr]
  split_ifs with first
  · trivial
  · exact (advances_bodyLf data p.tail).mono (length_tail_lt first).le
  · exact advances_bodyLf data p

theorem advances_body : (caseBody data p).Advances p := by
  rw [caseBody]
  split_ifs
  · trivial
  · have shorter : (p.drop data.chunkSize).length ≤ p.length := (List.drop_sublist _ _).length_le
    exact ((advances_bodyCr data (p.drop data.chunkSize)).mono shorter).behind _
  · trivial

theorem advances_sizeLf : (caseSizeLf data p).Advances p := by
  rw [caseSizeLf]
  split_ifs with first
  · exact Or.inl (length_tail_lt first)
  · trivial
  · exact (advances_body data p.tail).mono (length_tail_lt first).le
  · exact Or.inr ⟨rfl, Nat.le_refl _⟩

theorem advances_sizeCr : (caseSizeCr data p).Advances p := by
  rw [caseSizeCr]
  split_ifs with first
  · trivial
  · exact (advances_sizeLf data p.tail).mono (length_tail_lt first).le
  · exact advances_sizeLf data p

theorem advances_sizeExt : (caseSizeExt data p).Advances p := by
  rw [caseSizeExt]
  split_ifs
  · trivial
  · exact (advances_sizeCr data _).mono (List.dropWhile_sublist _).length_le

theorem length_sizeLoop : (sizeLoop data p).2.length ≤ p.length := by
  induction p generalizing data with
  | nil => exact Nat.le_refl _
  | cons c rest induction =>
      rw [sizeLoop]
      split
      · exact (induction _).trans (Nat.le_succ _)
      · split_ifs <;> exact Nat.le_refl _

theorem advances_size : (caseSize data p).Advances p := by
  have shorter := length_sizeLoop data p
  rw [caseSize]
  simp only
  split_ifs with isError
  · exact Or.inr ⟨isError, shorter⟩
  · trivial
  · exact (advances_sizeExt _ _).mono shorter

theorem advances_switch (nonempty : p ≠ []) : (switch data p).Advances p := by
  rw [switch]
  split
  · exact advances_size _ p
  · exact advances_size data p
  · exact advances_sizeExt data p
  · exact advances_sizeCr data p
  · exact advances_sizeLf data p
  · exact advances_body data p
  · exact advances_bodyCr data p
  · exact advances_bodyLf data p
  · exact Or.inl (List.length_pos_iff.mpr nonempty)
  · trivial

end Cases

/-- The loop does what the machine does with the buffer. -/
theorem dechunkLoop_eq {fuel : Nat} {data : ChunkedData} {p : List UInt8}
    (enough : p.length + (if data.state = .error then 0 else 1) ≤ fuel) :
    ((dechunkLoop fuel data p).1.mode, (dechunkLoop fuel data p).2) = run feed data.mode p := by
  induction fuel generalizing data p with
  | zero =>
      have empty : p = [] := List.length_eq_zero_iff.mp (by omega)
      rw [empty]
      rfl
  | succ fuel induction =>
      rw [dechunkLoop]
      by_cases empty : p = []
      · rw [if_pos empty, empty]
        rfl
      · rw [if_neg empty, ← meaning_switch data empty]
        have advances := advances_switch data p empty
        cases round : switch data p with
        | again next rest out =>
            have going : data.state ≠ .error := by
              intro isError
              rw [switch, isError] at round
              cases round
            rw [round] at advances
            rw [if_neg going] at enough
            have less : rest.length + (if next.state = .error then 0 else 1) ≤ fuel := by
              cases advances with
              | inl less => split_ifs <;> omega
              | inr error =>
                  rw [if_pos error.1]
                  omega
            rw [Flow.meaning, ← induction less]
        | stop next out => rfl

/-- `php_dechunk` is a machine that reads one byte at a time. -/
theorem phpDechunk_eq (data : ChunkedData) (buf : List UInt8) :
    ((phpDechunk data buf).1.mode, (phpDechunk data buf).2) = run feed data.mode buf := by
  apply dechunkLoop_eq
  split_ifs <;> omega

theorem dechunkAll_eq (data : ChunkedData) (bufs : List (List UInt8)) :
    ((dechunkAll data bufs).1.mode, (dechunkAll data bufs).2) =
      run feed data.mode bufs.flatten := by
  induction bufs generalizing data with
  | nil => rfl
  | cons buf bufs induction =>
      rw [List.flatten_cons, run_append, ← phpDechunk_eq, ← induction]
      rfl

theorem length_feed (mode : Mode) (c : UInt8) : (feed mode c).2.length ≤ 1 := by
  fun_cases feed mode c <;> simp_all [feedExt, feedCr, feedLf, feedBodyLf] <;> split_ifs <;> simp

theorem length_run_feed (mode : Mode) (text : List UInt8) :
    (run feed mode text).2.length ≤ text.length := by
  induction text generalizing mode with
  | nil => exact Nat.le_refl _
  | cons c rest induction =>
      have one := length_feed mode c
      have more := induction (feed mode c).1
      rw [run_cons, List.length_append, List.length_cons]
      omega

/-- The output never gets ahead of the input, so that it can be written over it: what is written
for the bytes up to a position ends there or before, and what follows fits behind it. -/
theorem phpDechunk_behind (data : ChunkedData) (buf : List UInt8) (position : Nat) :
    let written := (phpDechunk data (buf.take position)).2
    written.length ≤ position
      ∧ ∃ more, (phpDechunk data buf).2 = written ++ more
        ∧ more.length ≤ buf.length - position := by
  have output (text : List UInt8) : (phpDechunk data text).2 = (run feed data.mode text).2 :=
    congrArg Prod.snd (phpDechunk_eq data text)
  have parts := @run_append _ _ _ feed data.mode (buf.take position) (buf.drop position)
  rw [List.take_append_drop] at parts
  rw [output, output, parts]
  refine ⟨(length_run_feed _ _).trans (List.length_take_le _ _), _, rfl, ?_⟩
  have rest := length_run_feed (run feed data.mode (buf.take position)).1 (buf.drop position)
  rwa [List.length_drop] at rest

/-! ## Chunks -/

/-- A number from its digits, behind another one. -/
def hexFrom (number : Nat) (text : List UInt8) : Nat :=
  text.foldl (fun number c => number * 16 + (hexDigit c).getD 0) number

/-- The line of a chunk size: digits, and an extension that begins with another byte. -/
structure SizeLine where
  digits : List UInt8
  extension : List UInt8
  hasDigits : digits ≠ []
  areDigits : ∀ c ∈ digits, (hexDigit c).isSome = true
  isExtension : ∀ c ∈ extension, isExt c = true
  separated : ∀ c, extension.head? = some c → hexDigit c = none

def SizeLine.number (line : SizeLine) : Nat := hexFrom 0 line.digits

def SizeLine.text (line : SizeLine) : List UInt8 := line.digits ++ line.extension ++ [cr, lf]

/-- A chunk that is not the last one. -/
structure Chunk where
  line : SizeLine
  data : List UInt8
  isSize : line.number = data.length
  nonempty : data ≠ []
  bounded : data.length < 2 ^ 64

def Chunk.text (chunk : Chunk) : List UInt8 := chunk.line.text ++ chunk.data ++ [cr, lf]

/-- The digits behind the first ones. -/
theorem run_digits {text : List UInt8} (digits : ∀ c ∈ text, (hexDigit c).isSome = true)
    (number : Nat) (rest : List UInt8) :
    run feed (.size (number % 2 ^ 64)) (text ++ rest) =
      run feed (.size (hexFrom number text % 2 ^ 64)) rest := by
  induction text generalizing number with
  | nil => rfl
  | cons c text induction =>
      rcases Option.isSome_iff_exists.mp (digits c List.mem_cons_self) with ⟨digit, isDigit⟩
      have next : addDigit (number % 2 ^ 64) digit = (number * 16 + digit) % 2 ^ 64 := by
        rw [addDigit]
        omega
      have silent : feed (.size (number % 2 ^ 64)) c =
          (.size ((number * 16 + digit) % 2 ^ 64), []) := by
        rw [feed, isDigit, ← next]
      rw [List.cons_append, run_silent silent,
        induction fun c member => digits c (List.mem_cons_of_mem _ member)]
      rw [hexFrom, hexFrom, List.foldl_cons, isDigit]
      rfl

theorem run_ext {text : List UInt8} (extension : ∀ c ∈ text, isExt c = true) (number : Nat)
    (rest : List UInt8) :
    run feed (.ext number) (text ++ rest) = run feed (.ext number) rest := by
  induction text with
  | nil => rfl
  | cons c text induction =>
      have silent : feed (.ext number) c = (.ext number, []) := by
        rw [feed, feedExt, if_pos (extension c List.mem_cons_self)]
      rw [List.cons_append, run_silent silent]
      exact induction fun c member => extension c (List.mem_cons_of_mem _ member)

theorem run_crlf (number : Nat) (rest : List UInt8) :
    run feed (.ext number) (cr :: lf :: rest) = run feed (afterLine number) rest := rfl

theorem run_line (line : SizeLine) (rest : List UInt8) :
    run feed .start (line.text ++ rest) =
      run feed (afterLine (line.number % 2 ^ 64)) rest := by
  have first : run feed .start (line.digits ++ (line.extension ++ ([cr, lf] ++ rest))) =
      run feed (.size (0 % 2 ^ 64)) (line.digits ++ (line.extension ++ ([cr, lf] ++ rest))) := by
    have hasDigits := line.hasDigits
    have areDigits := line.areDigits
    generalize line.digits = digits at hasDigits areDigits
    cases digits with
    | nil => exact absurd rfl hasDigits
    | cons c digits =>
        rcases Option.isSome_iff_exists.mp (areDigits c List.mem_cons_self) with ⟨digit, isDigit⟩
        exact run_congr (by simp [feed, isDigit]) _
  have extension (number : Nat) : run feed (.size number) (line.extension ++ ([cr, lf] ++ rest)) =
      run feed (.ext number) (line.extension ++ ([cr, lf] ++ rest)) := by
    have separated := line.separated
    generalize line.extension = extension at separated
    cases extension with
    | nil => rfl
    | cons c extension =>
        exact run_congr (by rw [feed, separated c rfl, feed]) _
  rw [SizeLine.text, List.append_assoc, List.append_assoc, first, run_digits line.areDigits,
    extension, run_ext line.isExtension]
  exact run_crlf _ _

theorem run_chunk (chunk : Chunk) (rest : List UInt8) :
    run feed .start (chunk.text ++ rest) =
      ((run feed .start rest).1, chunk.data ++ (run feed .start rest).2) := by
  have body : afterLine (chunk.line.number % 2 ^ 64) = bodyOf chunk.data.length := by
    rw [chunk.isSize, Nat.mod_eq_of_lt chunk.bounded]
    cases length : chunk.data.length with
    | zero => exact absurd (List.length_eq_zero_iff.mp length) chunk.nonempty
    | succ left => rfl
  have closes : run feed .bodyCr ([cr, lf] ++ rest) = run feed .start rest := rfl
  rw [Chunk.text, List.append_assoc, List.append_assoc, run_line, body, run_bodyOf,
    if_pos (by simp), List.drop_left, List.take_left, closes]

theorem run_chunks (chunks : List Chunk) (rest : List UInt8) :
    run feed .start (chunks.flatMap Chunk.text ++ rest) =
      ((run feed .start rest).1, chunks.flatMap Chunk.data ++ (run feed .start rest).2) := by
  induction chunks with
  | nil => rfl
  | cons chunk chunks induction =>
      rw [List.flatMap_cons, List.append_assoc, run_chunk, induction, List.flatMap_cons,
        List.append_assoc]

theorem run_last {last : SizeLine} (zero : last.number = 0) (trailer : List UInt8) :
    run feed .start (last.text ++ trailer) = (.trailer, []) := by
  rw [run_line, zero]
  exact run_trailer trailer

/-- However its bytes arrive, a text gives what it gives as a whole, and the text of some chunks
gives their data. -/
theorem dechunk_correct (bufs : List (List UInt8)) :
    (dechunkAll chunkedStart bufs).2 = (phpDechunk chunkedStart bufs.flatten).2 ∧
      ∀ (chunks : List Chunk) (last : SizeLine) (trailer : List UInt8), last.number = 0 →
        bufs.flatten = chunks.flatMap Chunk.text ++ (last.text ++ trailer) →
        (dechunkAll chunkedStart bufs).2 = chunks.flatMap Chunk.data := by
  have isStart : chunkedStart.mode = .start := rfl
  have all := dechunkAll_eq chunkedStart bufs
  constructor
  · rw [← phpDechunk_eq] at all
    exact (Prod.mk.inj all).2
  · intro chunks last trailer zero text
    rw [text, isStart, run_chunks, run_last zero, List.append_nil] at all
    exact (Prod.mk.inj all).2

/-- `2;x` -/
def twoWithExtension : SizeLine where
  digits := [byte '2']
  extension := [byte ';', byte 'x']
  hasDigits := by decide
  areDigits := forall_of_all (by decide)
  isExtension := forall_of_all (by decide)
  separated := by
    rintro c ⟨⟩
    decide

def zeros : SizeLine where
  digits := [byte '0', byte '0']
  extension := []
  hasDigits := by decide
  areDigits := forall_of_all (by decide)
  isExtension := by simp
  separated := by simp

/-- A cut between carriage return and line feed, and one in the data. -/
theorem dechunk_two_cuts :
    (dechunkAll chunkedStart
      [[byte '2', byte ';', byte 'x', cr], [lf, byte 'a'],
        [byte 'b', cr, lf, byte '0', byte '0', cr, lf, byte 'c']]).2 = [byte 'a', byte 'b'] :=
  (dechunk_correct _).2 [⟨twoWithExtension, [byte 'a', byte 'b'], by decide, by decide, by decide⟩]
    zeros [byte 'c'] (by decide) (by decide)

end PhpRuntime.Filters
