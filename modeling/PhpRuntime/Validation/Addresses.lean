import PhpRuntime.Validation.IntFilter

/-! # Validating addresses

`_php_filter_validate_ipv4` and `_php_filter_validate_ipv6` of `ext/filter/logical_filters.c`.
A pointer is the text between it and `end`.
-/

namespace PhpRuntime.Validation

open Decimal CString Positional

/-! ## IPv4 -/

/-- The digits of a number behind the first one; `m` counts them. -/
def numberLoop : Nat → Nat → List UInt8 → Option (Nat × Nat × List UInt8)
  | num, m, [] => some (num, m, [])
  | num, m, c :: rest =>
      if isDigit c then
        if num * 10 + digit c > 255 ∨ m + 1 > 3 then none
        else numberLoop (num * 10 + digit c) (m + 1) rest
      else
        some (num, m, c :: rest)

/-- One number of an address, and what is behind it. -/
def ipv4Number : List UInt8 → Option (Nat × List UInt8)
  | [] => none
  | c :: rest =>
      if isDigit c then
        match numberLoop (digit c) 1 rest with
        | none => none
        | some (num, m, rest) =>
            -- a leading zero would introduce an octal number
            if c = byte '0' ∧ (num ≠ 0 ∨ m > 1) then none else some (num, rest)
      else
        none

/-- The numbers that are left to read. -/
def ipv4Loop : Nat → List UInt8 → Option (List Nat)
  | 0, _ => none
  | left + 1, str =>
      match ipv4Number str with
      | none => none
      | some (num, rest) =>
          if left = 0 then
            if rest = [] then some [num] else none
          else
            match rest with
            | [] => none
            | c :: rest => if c = byte '.' then (ipv4Loop left rest).map (num :: ·) else none

/-- `_php_filter_validate_ipv4`, with the numbers that it stores. -/
def phpFilterValidateIpv4 (str : List UInt8) : Option (List Nat) := ipv4Loop 4 str

/-! ## IPv6 -/

def colon : UInt8 := byte ':'

/-- What is found in front of a group: a verdict, or the group that has to be read. -/
inductive Turn where
  | verdict (result : Bool)
  | group (compressed : Bool) (blocks : Nat) (str : List UInt8)

/-- A round of the loop up to the group. `first` holds at the start of the text. -/
def separator (first compressed : Bool) (blocks : Nat) : List UInt8 → Turn
  | [] => .verdict ((compressed && blocks ≤ 8) || blocks == 8)
  | c :: rest =>
      if c = colon then
        match rest with
        | [] => .verdict false
        | d :: more =>
            if d = colon then
              if compressed then .verdict false
              else if more = [] then .verdict (blocks + 1 ≤ 8)
              else .group true (blocks + 1) more
            else if first then .verdict false
            else .group compressed blocks (d :: more)
      else
        .group compressed blocks (c :: rest)

/-- Reading a group; `next` goes on behind it. -/
def takeGroup (next : List UInt8 → Bool) (blocks : Nat) (str : List UInt8) : Bool :=
  let n := (str.takeWhile isXdigit).length
  if n < 1 ∨ n > 4 then false else if blocks + 1 > 8 then false else next (str.drop n)

/-- The loop over the blocks. -/
def ipv6Loop : Nat → Bool → Bool → Nat → List UInt8 → Bool
  | 0, _, _, _, _ => false
  | fuel + 1, first, compressed, blocks, str =>
      match separator first compressed blocks str with
      | .verdict result => result
      | .group compressed blocks str =>
          takeGroup (ipv6Loop fuel false compressed (blocks + 1)) blocks str

/-- Where the bundled IPv4 address starts, if there is a dot. -/
def ipv4Start (str : List UInt8) : Nat :=
  let front := str.takeWhile (· != byte '.')
  front.length - (front.reverse.takeWhile (· != colon)).length

/-- `_php_filter_validate_ipv6` -/
def phpFilterValidateIpv6 (str : List UInt8) : Bool :=
  if colon ∉ str then
    false
  else if byte '.' ∈ str then
    let strLen := ipv4Start str
    if (phpFilterValidateIpv4 (str.drop strLen)).isNone then false
    else if strLen < 2 then false
    else
      let strLen := if read str (strLen - 2) ≠ colon then strLen - 1 else strLen
      ipv6Loop (strLen + 1) true false 2 (str.take strLen)
  else
    ipv6Loop (str.length + 1) true false 0 str

/-! ## Texts of addresses -/

/-- Four decimal numbers below 256 without leading zeros, and their values. -/
def Dotted (text : List UInt8) (ip : List Nat) : Prop :=
  ∃ parts : List (List UInt8), parts.length = 4 ∧ (∀ part ∈ parts, Plain part ∧ value part ≤ 255)
    ∧ text = [byte '.'].intercalate parts ∧ ip = parts.map value

/-- One to four hexadecimal digits. -/
def Group (text : List UInt8) : Prop :=
  1 ≤ text.length ∧ text.length ≤ 4 ∧ ∀ c ∈ text, isXdigit c = true

instance (text : List UInt8) : Decidable (Group text) :=
  decidable_of_iff (1 ≤ text.length ∧ text.length ≤ 4 ∧ text.all isXdigit = true)
    (by rw [Group, List.all_eq_true])

/-- The number that hexadecimal digits write. -/
def xvalue (text : List UInt8) : Nat := number 16 (fun c => (hexDigit c).getD 0) 0 text

/-- The last groups of an address, of which two may be written as a dotted address. -/
inductive Ending : List (List UInt8) → List Nat → Prop where
  | groups {gs : List (List UInt8)} (all : ∀ g ∈ gs, Group g) : Ending gs (gs.map xvalue)
  | dotted {gs : List (List UInt8)} {text : List UInt8} {a b c d : Nat}
      (all : ∀ g ∈ gs, Group g) (bundled : Dotted text [a, b, c, d]) :
      Ending (gs ++ [text]) (gs.map xvalue ++ [a * 256 + b, c * 256 + d])

/-- A text of an address, and the eight groups of sixteen bits that it denotes. -/
inductive Spells : List UInt8 → List Nat → Prop where
  | full {pieces : List (List UInt8)} {groups : List Nat} (ending : Ending pieces groups)
      (eight : groups.length = 8) : Spells ([colon].intercalate pieces) groups
  | compressed {gs pieces : List (List UInt8)} {groups : List Nat} (all : ∀ g ∈ gs, Group g)
      (ending : Ending pieces groups) (room : gs.length + groups.length ≤ 7) :
      Spells ([colon].intercalate gs ++ [colon, colon] ++ [colon].intercalate pieces)
        (gs.map xvalue ++ List.replicate (8 - gs.length - groups.length) 0 ++ groups)

/-! ## The bundled IPv4 address -/

/-- What passes a test stands in front of something that does not. -/
def Stops (test : UInt8 → Bool) (rest : List UInt8) : Prop :=
  ∀ c, rest.head? = some c → test c = false

theorem Stops.nil (test : UInt8 → Bool) : Stops test [] := nofun

theorem Stops.cons {test : UInt8 → Bool} {c : UInt8} (fails : test c = false)
    (rest : List UInt8) : Stops test (c :: rest) := by
  rintro d equal
  cases equal
  exact fails

theorem stops_dropWhile (test : UInt8 → Bool) (text : List UInt8) :
    Stops test (text.dropWhile test) := by
  intro c head
  have fails := List.head?_dropWhile_not test text
  rw [head] at fails
  simpa using fails

theorem Stops.span {test : UInt8 → Bool} {part rest : List UInt8} (stops : Stops test rest)
    (all : ∀ c ∈ part, test c = true) :
    (part ++ rest).takeWhile test = part ∧ (part ++ rest).dropWhile test = rest := by
  have none : rest.takeWhile test = [] ∧ rest.dropWhile test = rest := by
    cases rest with
    | nil => exact ⟨rfl, rfl⟩
    | cons c rest =>
        have fails : ¬test c = true := by simp [stops c rfl]
        exact ⟨List.takeWhile_cons_of_neg fails, List.dropWhile_cons_of_neg fails⟩
  rw [List.takeWhile_append_of_pos all, List.dropWhile_append_of_pos all, none.1, none.2]
  exact ⟨List.append_nil _, rfl⟩

section Ipv4

variable {num m k : Nat} {text rest : List UInt8} {ip : List Nat}

theorem numberLoop_iff {result : Nat} (small : num ≤ 255) (few : m ≤ 3) :
    numberLoop num m text = some (result, k, rest) ↔
      result = valueFrom num (text.takeWhile isDigit) ∧ k = m + (text.takeWhile isDigit).length
      ∧ rest = text.dropWhile isDigit ∧ result ≤ 255 ∧ k ≤ 3 := by
  have ends (num m : Nat) (text : List UInt8) (small : num ≤ 255) (few : m ≤ 3) :
      some (num, m, text) = some (result, k, rest) ↔
        result = num ∧ k = m ∧ rest = text ∧ result ≤ 255 ∧ k ≤ 3 := by
    constructor
    · rintro ⟨⟩
      exact ⟨rfl, rfl, rfl, small, few⟩
    · rintro ⟨rfl, rfl, rfl, _, _⟩
      rfl
  induction text generalizing num m with
  | nil => exact ends num m [] small few
  | cons c text induction =>
      rw [numberLoop]
      by_cases isDigit : isDigit c = true
      · rw [if_pos isDigit, List.takeWhile_cons_of_pos isDigit, List.dropWhile_cons_of_pos isDigit,
          valueFrom_cons, List.length_cons]
        split
        · next full =>
          refine ⟨nofun, fun all => ?_⟩
          have large := le_valueFrom (num * 10 + digit c) (text.takeWhile Decimal.isDigit)
          omega
        · next fits =>
          have later := @induction (num * 10 + digit c) (m + 1) (by omega) (by omega)
          rw [Nat.add_assoc, Nat.add_comm 1] at later
          exact later
      · rw [if_neg isDigit, List.takeWhile_cons_of_neg isDigit, List.dropWhile_cons_of_neg isDigit]
        exact ends num m (c :: text) small few

/-- A number below 256 without leading zeros has at most three digits. -/
theorem Plain.length_le {digits : List UInt8} (plain : Plain digits) (small : value digits ≤ 255) :
    digits.length ≤ 3 := by
  cases digits with
  | nil => exact Nat.zero_le _
  | cons c rest =>
      by_cases zero : c = byte '0'
      · rw [(plain_cons.mp plain).2.2 zero]
        exact Nat.succ_le_succ (Nat.zero_le _)
      · have positive : 1 ≤ digit c := digit_pos plain.isDigit_head zero
        have large : digit c * 10 ^ rest.length ≤ value (c :: rest) := digit_mul_le_number c rest
        by_contra long
        rw [List.length_cons] at long
        have power : 10 ^ 3 ≤ 10 ^ rest.length := Nat.pow_le_pow_right (by decide) (by omega)
        have huge := Nat.mul_le_mul positive power
        omega

theorem ipv4Number_iff :
    ipv4Number text = some (num, rest) ↔ ∃ part, Plain part ∧ value part = num ∧ num ≤ 255
      ∧ text = part ++ rest ∧ Stops isDigit rest := by
  cases text with
  | nil =>
      refine ⟨fun read => absurd read (by simp [ipv4Number]), ?_⟩
      rintro ⟨part, plain, _, _, equal, _⟩
      rw [(List.append_eq_nil_iff.mp equal.symm).1] at plain
      exact absurd plain not_plain_nil
  | cons c text =>
      rw [ipv4Number]
      by_cases isDigit : isDigit c = true
      · have small : digit c ≤ 255 := Nat.le_of_lt (Nat.lt_trans (digit_lt isDigit) (by decide))
        rw [if_pos isDigit]
        constructor
        · intro read
          split at read
          · contradiction
          · next num' m rest' loop =>
            split at read
            · contradiction
            · next leading =>
              cases read
              obtain ⟨rfl, rfl, rfl, less, _⟩ := (numberLoop_iff small (by decide)).mp loop
              refine ⟨c :: text.takeWhile Decimal.isDigit, plain_cons.mpr ⟨isDigit,
                fun d member => List.mem_takeWhile_imp member, fun zero => ?_⟩, value_cons _ _,
                less, ?_, stops_dropWhile _ _⟩
              · by_contra some_
                have long := List.length_pos_of_ne_nil some_
                exact leading ⟨zero, .inr (by omega)⟩
              · rw [List.cons_append, List.takeWhile_append_dropWhile]
        · rintro ⟨part, plain, rfl, less, equal, stops⟩
          cases part with
          | nil => exact absurd plain not_plain_nil
          | cons d run =>
              rw [List.cons_append] at equal
              obtain ⟨rfl, rfl⟩ := List.cons.inj equal
              obtain ⟨-, digits, alone⟩ := plain_cons.mp plain
              have span := stops.span digits
              have short := plain.length_le less
              rw [List.length_cons] at short
              have loop := (@numberLoop_iff (digit c) 1 (1 + run.length) (run ++ rest) rest
                (value (c :: run)) small (by decide)).mpr
                (by
                  rw [span.1, span.2]
                  exact ⟨value_cons c run, rfl, rfl, less, by omega⟩)
              rw [loop]
              dsimp only
              rw [if_neg]
              rintro ⟨zero, more⟩
              obtain rfl := alone zero
              rw [zero] at more
              exact absurd more (by decide)
      · rw [if_neg isDigit]
        refine ⟨fun read => absurd read (by simp), ?_⟩
        rintro ⟨part, plain, _, _, equal, _⟩
        cases part with
        | nil => exact absurd plain not_plain_nil
        | cons d run =>
            rw [(List.cons.inj equal).1] at isDigit
            exact absurd plain.isDigit_head isDigit

theorem ipv4Loop_iff (left : Nat) :
    ipv4Loop (left + 1) text = some ip ↔ ∃ parts : List (List UInt8), parts.length = left + 1
      ∧ (∀ part ∈ parts, Plain part ∧ value part ≤ 255)
      ∧ text = [byte '.'].intercalate parts ∧ ip = parts.map value := by
  have dot : isDigit (byte '.') = false := rfl
  induction left generalizing text ip with
  | zero =>
      rw [ipv4Loop]
      constructor
      · intro read
        split at read
        · contradiction
        · next num rest number =>
          obtain ⟨part, plain, rfl, less, rfl, _⟩ := ipv4Number_iff.mp number
          rw [if_pos rfl] at read
          split at read
          · next empty =>
            cases read
            subst empty
            exact ⟨[part], rfl, by simpa using ⟨plain, less⟩, by simp, rfl⟩
          · contradiction
      · rintro ⟨parts, one, octets, rfl, rfl⟩
        obtain ⟨part, rfl⟩ := List.length_eq_one_iff.mp one
        obtain ⟨plain, less⟩ := octets part List.mem_cons_self
        have number := (@ipv4Number_iff (value part) part []).mpr
          ⟨part, plain, rfl, less, by simp, .nil _⟩
        simp [number]
  | succ left induction =>
      rw [ipv4Loop]
      constructor
      · intro read
        split at read
        · contradiction
        · next num rest number =>
          obtain ⟨part, plain, rfl, less, rfl, _⟩ := ipv4Number_iff.mp number
          rw [if_neg (Nat.succ_ne_zero _)] at read
          split at read
          · contradiction
          · next c rest =>
            split at read
            · next isDot =>
              obtain ⟨later, loop, rfl⟩ := Option.map_eq_some_iff.mp read
              obtain ⟨parts, count, octets, rfl, rfl⟩ := induction.mp loop
              refine ⟨part :: parts, by simp [count], by simpa using ⟨⟨plain, less⟩, octets⟩, ?_,
                rfl⟩
              cases parts with
              | nil => contradiction
              | cons next parts =>
                  rw [List.intercalate_cons_cons, isDot, List.append_assoc, List.singleton_append]
            · contradiction
      · rintro ⟨parts, count, octets, rfl, rfl⟩
        rcases parts with _ | ⟨part, _ | ⟨next, parts⟩⟩
        · contradiction
        · simp at count
        · obtain ⟨plain, less⟩ := octets part List.mem_cons_self
          have later := (@induction ([byte '.'].intercalate (next :: parts)) _).mpr
            ⟨next :: parts, by simpa using count,
              fun part member => octets part (List.mem_cons_of_mem _ member), rfl, rfl⟩
          have number := (@ipv4Number_iff (value part)
            ([byte '.'].intercalate (part :: next :: parts))
            (byte '.' :: [byte '.'].intercalate (next :: parts))).mpr
            ⟨part, plain, rfl, less, by simp [List.intercalate_cons_cons], .cons dot _⟩
          rw [number]
          simp [later]

theorem phpFilterValidateIpv4_iff : phpFilterValidateIpv4 text = some ip ↔ Dotted text ip :=
  ipv4Loop_iff 3

end Ipv4

/-! ## The loop over the blocks -/

section Blocks

variable {fuel blocks : Nat} {str rest : List UInt8} {gs : List (List UInt8)}

/-- Groups with a colon in front of each. -/
def follow (gs : List (List UInt8)) : List UInt8 := gs.flatMap (colon :: ·)

theorem intercalate_cons (separator : UInt8) (part : List UInt8) (parts : List (List UInt8)) :
    [separator].intercalate (part :: parts) = part ++ parts.flatMap (separator :: ·) := by
  induction parts generalizing part with
  | nil => simp
  | cons next parts induction =>
      rw [List.intercalate_cons_cons, induction, List.flatMap_cons]
      simp

theorem mem_intercalate {separator c : UInt8} {parts : List (List UInt8)}
    (member : c ∈ [separator].intercalate parts) : c = separator ∨ ∃ part ∈ parts, c ∈ part := by
  cases parts with
  | nil => simp at member
  | cons part parts =>
      rw [intercalate_cons, List.mem_append, List.mem_flatMap] at member
      rcases member with here | ⟨other, listed, inside⟩
      · exact .inr ⟨part, List.mem_cons_self, here⟩
      · rcases List.mem_cons.mp inside with rfl | inside
        · exact .inl rfl
        · exact .inr ⟨other, List.mem_cons_of_mem _ listed, inside⟩

theorem stops_follow (gs : List (List UInt8)) : Stops isXdigit (follow gs) := by
  cases gs with
  | nil => exact .nil _
  | cons g gs => exact .cons rfl _

/-- A group starts with a digit. -/
theorem Group.cons {g : List UInt8} (group : Group g) :
    ∃ c more, g = c :: more ∧ isXdigit c = true := by
  cases g with
  | nil => exact absurd group.1 (by decide)
  | cons c more => exact ⟨c, more, rfl, group.2.2 c List.mem_cons_self⟩

theorem Group.head_ne {g text : List UInt8} {c : UInt8} (group : Group g)
    (other : isXdigit c = false) : c :: text ≠ g ++ rest := by
  obtain ⟨d, more, rfl, isXdigit⟩ := group.cons
  intro equal
  rw [List.cons_append] at equal
  rw [(List.cons.inj equal).1, isXdigit] at other
  contradiction

theorem takeGroup_iff {next : List UInt8 → Bool} :
    takeGroup next blocks str = true ↔ ∃ g rest, Group g ∧ str = g ++ rest
      ∧ Stops isXdigit rest ∧ blocks + 1 ≤ 8 ∧ next rest = true := by
  simp only [takeGroup]
  constructor
  · intro taken
    split_ifs at taken with length room
    have parts := List.takeWhile_append_dropWhile (p := isXdigit) (l := str)
    have behind : str.drop (str.takeWhile isXdigit).length = str.dropWhile isXdigit := by
      nth_rewrite 2 [← parts]
      rw [List.drop_left]
    rw [behind] at taken
    exact ⟨_, _, ⟨by omega, by omega, fun c member => List.mem_takeWhile_imp member⟩, parts.symm,
      stops_dropWhile _ _, by omega, taken⟩
  · rintro ⟨g, rest, group, rfl, stops, room, taken⟩
    rw [(stops.span group.2.2).1, if_neg (by have := group.1; have := group.2.1; omega),
      if_neg (by omega), List.drop_left]
    exact taken

/-- What the loop accepts behind a group. -/
inductive Blocks : Bool → Nat → List UInt8 → Prop where
  | done {compressed : Bool} {blocks : Nat}
      (count : blocks = 8 ∨ (compressed = true ∧ blocks ≤ 8)) : Blocks compressed blocks []
  | group {compressed : Bool} {blocks : Nat} {g rest : List UInt8} (isGroup : Group g)
      (behind : Blocks compressed (blocks + 1) rest) :
      Blocks compressed blocks (colon :: (g ++ rest))
  | gap {blocks : Nat} (room : blocks + 1 ≤ 8) : Blocks false blocks [colon, colon]
  | gapGroup {blocks : Nat} {g rest : List UInt8} (isGroup : Group g)
      (behind : Blocks true (blocks + 2) rest) :
      Blocks false blocks (colon :: colon :: (g ++ rest))

theorem Blocks.stops {compressed : Bool} (accepted : Blocks compressed blocks str) :
    Stops isXdigit str := by
  cases accepted with
  | done => exact .nil _
  | _ => exact .cons rfl _

theorem Blocks.le {compressed : Bool} (accepted : Blocks compressed blocks str) : blocks ≤ 8 := by
  induction accepted with
  | done count => omega
  | group _ _ induction => omega
  | gap room => omega
  | gapGroup _ _ induction => omega

/-- A group and what is accepted behind it. -/
def Grouped (compressed : Bool) (blocks : Nat) (str : List UInt8) : Prop :=
  ∃ g rest, Group g ∧ str = g ++ rest ∧ Blocks compressed (blocks + 1) rest

theorem not_grouped_nil {compressed : Bool} : ¬Grouped compressed blocks [] := by
  rintro ⟨g, rest, isGroup, equal, _⟩
  rw [(List.append_eq_nil_iff.mp equal.symm).1] at isGroup
  exact absurd isGroup.1 (by decide)

theorem not_grouped_colon {compressed : Bool} : ¬Grouped compressed blocks (colon :: str) := by
  rintro ⟨g, rest, isGroup, equal, _⟩
  exact isGroup.head_ne rfl equal

theorem takeGroup_blocks {compressed : Bool} {loop : List UInt8 → Bool}
    (correct : ∀ rest, rest.length < str.length → Stops isXdigit rest →
      (loop rest = true ↔ Blocks compressed (blocks + 1) rest)) :
    takeGroup loop blocks str = true ↔ Grouped compressed blocks str := by
  rw [takeGroup_iff]
  have shorter {g rest : List UInt8} (isGroup : Group g) (equal : str = g ++ rest) :
      rest.length < str.length := by
    have length := isGroup.1
    rw [equal, List.length_append]
    omega
  constructor
  · rintro ⟨g, rest, isGroup, equal, stops, _, accepted⟩
    exact ⟨g, rest, isGroup, equal, (correct rest (shorter isGroup equal) stops).mp accepted⟩
  · rintro ⟨g, rest, isGroup, equal, accepted⟩
    exact ⟨g, rest, isGroup, equal, accepted.stops, accepted.le,
      (correct rest (shorter isGroup equal) accepted.stops).mpr accepted⟩

theorem blocks_colon {compressed : Bool} :
    Blocks compressed blocks (colon :: rest) ↔
      Grouped compressed blocks rest
      ∨ (compressed = false ∧ ∃ gap, rest = colon :: gap
        ∧ ((gap = [] ∧ blocks + 1 ≤ 8) ∨ Grouped true (blocks + 1) gap)) := by
  constructor
  · intro accepted
    cases accepted with
    | group isGroup behind => exact .inl ⟨_, _, isGroup, rfl, behind⟩
    | gap room => exact .inr ⟨rfl, _, rfl, .inl ⟨rfl, room⟩⟩
    | gapGroup isGroup behind => exact .inr ⟨rfl, _, rfl, .inr ⟨_, _, isGroup, rfl, behind⟩⟩
  · rintro (⟨g, more, isGroup, rfl, behind⟩ |
      ⟨rfl, gap, rfl, ⟨rfl, room⟩ | ⟨g, more, isGroup, rfl, behind⟩⟩)
    · exact .group isGroup behind
    · exact .gap room
    · exact .gapGroup isGroup behind

theorem ipv6Loop_iff {compressed : Bool} (enough : str.length < fuel)
    (stops : Stops isXdigit str) :
    ipv6Loop fuel false compressed blocks str = true ↔ Blocks compressed blocks str := by
  induction fuel generalizing compressed blocks str with
  | zero => omega
  | succ fuel induction =>
      rw [ipv6Loop]
      rcases str with _ | ⟨c, rest⟩
      · simp only [separator, Bool.or_eq_true, Bool.and_eq_true, beq_iff_eq, decide_eq_true_eq]
        rw [or_comm]
        refine ⟨.done, fun accepted => ?_⟩
        cases accepted with
        | done count => exact count
      rw [List.length_cons] at enough
      have grouped (compressed : Bool) (blocks : Nat) (text : List UInt8)
          (shorter : text.length ≤ rest.length) :=
        @takeGroup_blocks blocks text compressed (ipv6Loop fuel false compressed (blocks + 1))
          fun rest less stops => induction (by omega) stops
      by_cases first : c = colon
      · subst first
        rw [blocks_colon]
        rcases rest with _ | ⟨d, more⟩
        · simp only [separator, if_true, Bool.false_eq_true, false_iff]
          rintro (grouped | ⟨_, gap, equal, _⟩)
          · exact not_grouped_nil grouped
          · contradiction
        · by_cases second : d = colon
          · subst second
            rw [or_iff_right not_grouped_colon]
            cases compressed with
            | true => simp [separator]
            | false =>
                by_cases last : more = []
                · subst last
                  simp only [separator, if_true, Bool.false_eq_true, if_false, decide_eq_true_eq]
                  refine ⟨fun room => ⟨trivial, [], rfl, .inl ⟨rfl, room⟩⟩, ?_⟩
                  rintro ⟨_, _, ⟨⟩, ⟨_, room⟩ | ⟨g, more, _, _, behind⟩⟩
                  · exact room
                  · have bound := behind.le
                    omega
                · simp only [separator, if_true, Bool.false_eq_true, if_false, if_neg last]
                  rw [grouped true (blocks + 1) more (by simp)]
                  refine ⟨fun known => ⟨trivial, more, rfl, .inr known⟩, ?_⟩
                  rintro ⟨_, _, ⟨⟩, ⟨empty, _⟩ | known⟩
                  · exact absurd empty last
                  · exact known
          · simp only [separator, if_true, Bool.false_eq_true, if_false, if_neg second]
            rw [grouped compressed blocks (d :: more) (Nat.le_refl _), or_iff_left]
            rintro ⟨_, gap, equal, _⟩
            exact second (List.cons.inj equal).1
      · have none : takeGroup (ipv6Loop fuel false compressed (blocks + 1)) blocks (c :: rest)
            = false := by
          simp [takeGroup, stops c rfl]
        simp only [separator, if_neg first, none, Bool.false_eq_true, false_iff]
        intro accepted
        cases accepted <;> exact first rfl

/-- At the start of the text there is a group or `::`. -/
theorem ipv6Loop_start (few : blocks < 8) (enough : str.length < fuel) :
    ipv6Loop fuel true false blocks str = true ↔
      Grouped false blocks str
      ∨ (∃ gap, str = colon :: colon :: gap ∧ Blocks false blocks (colon :: colon :: gap)) := by
  obtain ⟨rounds, rfl⟩ : ∃ rounds, fuel = rounds + 1 := ⟨fuel - 1, by omega⟩
  rcases str with _ | ⟨c, rest⟩
  · rw [ipv6Loop]
    simp only [separator, Bool.false_and, Bool.false_or, beq_iff_eq]
    constructor
    · intro full
      omega
    · rintro (grouped | ⟨gap, equal, _⟩)
      · exact absurd grouped not_grouped_nil
      · contradiction
  · by_cases first : c = colon
    · subst first
      rw [or_iff_right not_grouped_colon]
      by_cases second : ∃ gap, rest = colon :: gap
      · obtain ⟨gap, rfl⟩ := second
        -- the same as behind a group
        have same : ipv6Loop (rounds + 1) true false blocks (colon :: colon :: gap)
            = ipv6Loop (rounds + 1) false false blocks (colon :: colon :: gap) := by
          rw [ipv6Loop, ipv6Loop]
          simp [separator]
        rw [same, ipv6Loop_iff enough (.cons rfl _)]
        refine ⟨fun known => ⟨gap, rfl, known⟩, ?_⟩
        rintro ⟨_, ⟨⟩, known⟩
        exact known
      · have rejected : ipv6Loop (rounds + 1) true false blocks (colon :: rest) = false := by
          rw [ipv6Loop]
          rcases rest with _ | ⟨d, more⟩
          · simp [separator]
          · have other : d ≠ colon := fun equal => second ⟨more, by rw [equal]⟩
            simp [separator, other]
        rw [rejected]
        refine ⟨fun accepted => absurd accepted Bool.false_ne_true, ?_⟩
        rintro ⟨gap, equal, _⟩
        exact absurd ⟨gap, (List.cons.inj equal).2⟩ second
    · rw [ipv6Loop, or_iff_left]
      · simp only [separator, if_neg first]
        rw [takeGroup_blocks]
        rw [List.length_cons] at enough ⊢
        exact fun rest less stops => ipv6Loop_iff (by omega) stops
      · rintro ⟨gap, equal, _⟩
        exact first (List.cons.inj equal).1

/-- The groups that the loop has gone through. -/
theorem Blocks.groups {compressed : Bool} (accepted : Blocks compressed blocks str) :
    (∃ gs, (∀ g ∈ gs, Group g) ∧ str = follow gs
      ∧ (blocks + gs.length = 8 ∨ (compressed = true ∧ blocks + gs.length ≤ 8)))
    ∨ (compressed = false ∧ ∃ gs rs, (∀ g ∈ gs, Group g) ∧ (∀ g ∈ rs, Group g)
      ∧ str = follow gs ++ ([colon, colon] ++ [colon].intercalate rs)
      ∧ blocks + gs.length + rs.length + 1 ≤ 8) := by
  induction accepted with
  | done count => exact .inl ⟨[], nofun, rfl, count⟩
  | @group compressed blocks g rest isGroup behind induction =>
      rcases induction with ⟨gs, groups, rfl, count⟩ | ⟨rfl, gs, rs, groups, others, rfl, count⟩
      · refine .inl ⟨g :: gs, List.forall_mem_cons.mpr ⟨isGroup, groups⟩, rfl, ?_⟩
        rw [List.length_cons]
        exact count.imp (fun full => by omega) fun less => ⟨less.1, by omega⟩
      · refine .inr ⟨rfl, g :: gs, rs, List.forall_mem_cons.mpr ⟨isGroup, groups⟩, others, ?_, ?_⟩
        · simp [follow]
        · rw [List.length_cons]
          omega
  | gap room => exact .inr ⟨rfl, [], [], nofun, nofun, rfl, room⟩
  | @gapGroup blocks g rest isGroup behind induction =>
      rcases induction with ⟨gs, groups, rfl, count⟩ | ⟨impossible, _⟩
      · refine .inr ⟨rfl, [], g :: gs, nofun, List.forall_mem_cons.mpr ⟨isGroup, groups⟩, ?_, ?_⟩
        · rw [intercalate_cons]
          rfl
        · rw [List.length_cons, List.length_nil]
          omega
      · contradiction

theorem blocks_follow {compressed : Bool} (groups : ∀ g ∈ gs, Group g)
    (behind : Blocks compressed (blocks + gs.length) rest) :
    Blocks compressed blocks (follow gs ++ rest) := by
  induction gs generalizing blocks with
  | nil => exact behind
  | cons g gs induction =>
      obtain ⟨isGroup, groups⟩ := List.forall_mem_cons.mp groups
      rw [List.length_cons, show blocks + (gs.length + 1) = blocks + 1 + gs.length by omega]
        at behind
      have whole := Blocks.group isGroup (induction groups behind)
      rwa [← List.append_assoc, ← List.cons_append] at whole

theorem blocks_gap {rs : List (List UInt8)} (groups : ∀ g ∈ rs, Group g)
    (room : blocks + rs.length + 1 ≤ 8) :
    Blocks false blocks ([colon, colon] ++ [colon].intercalate rs) := by
  cases rs with
  | nil => exact .gap room
  | cons g rs =>
      obtain ⟨isGroup, groups⟩ := List.forall_mem_cons.mp groups
      rw [List.length_cons] at room
      have last := @blocks_follow (blocks + 2) [] rs true groups (.done (.inr ⟨rfl, by omega⟩))
      rw [List.append_nil] at last
      rw [intercalate_cons]
      change Blocks false blocks (colon :: colon :: (g ++ follow rs))
      exact .gapGroup isGroup last

/-- The texts without dots that the loop accepts. -/
theorem ipv6Loop_texts (few : blocks < 8) (enough : str.length < fuel) :
    ipv6Loop fuel true false blocks str = true ↔
      (∃ gs, (∀ g ∈ gs, Group g) ∧ str = [colon].intercalate gs ∧ blocks + gs.length = 8)
      ∨ (∃ gs rs, (∀ g ∈ gs, Group g) ∧ (∀ g ∈ rs, Group g)
        ∧ str = [colon].intercalate gs ++ ([colon, colon] ++ [colon].intercalate rs)
        ∧ blocks + gs.length + rs.length + 1 ≤ 8) := by
  rw [ipv6Loop_start few enough]
  constructor
  · rintro (⟨g, rest, isGroup, rfl, behind⟩ | ⟨gap, rfl, behind⟩)
    · rcases behind.groups with ⟨gs, groups, rfl, count | ⟨impossible, _⟩⟩ |
        ⟨_, gs, rs, groups, others, rfl, count⟩
      · refine .inl ⟨g :: gs, List.forall_mem_cons.mpr ⟨isGroup, groups⟩, ?_, ?_⟩
        · rw [intercalate_cons, follow]
        · rw [List.length_cons]
          omega
      · contradiction
      · refine .inr ⟨g :: gs, rs, List.forall_mem_cons.mpr ⟨isGroup, groups⟩, others, ?_, ?_⟩
        · rw [intercalate_cons, follow, List.append_assoc]
        · rw [List.length_cons]
          omega
    · rcases behind.groups with ⟨gs, groups, equal, _⟩ | ⟨_, gs, rs, groups, others, equal, count⟩
      all_goals
        rcases gs with _ | ⟨g, gs⟩
      · contradiction
      · exact absurd (List.cons.inj equal).2 ((groups g List.mem_cons_self).head_ne rfl)
      · exact .inr ⟨[], rs, nofun, others, equal, count⟩
      · rw [follow, List.flatMap_cons, List.cons_append, List.cons_append, List.append_assoc]
          at equal
        exact absurd (List.cons.inj equal).2 ((groups g List.mem_cons_self).head_ne rfl)
  · rintro (⟨gs, groups, rfl, count⟩ | ⟨gs, rs, groups, others, rfl, count⟩)
    all_goals
      rcases gs with _ | ⟨g, gs⟩
    · rw [List.length_nil] at count
      omega
    · obtain ⟨isGroup, groups⟩ := List.forall_mem_cons.mp groups
      rw [List.length_cons] at count
      have last := @blocks_follow (blocks + 1) [] gs false groups (.done (.inl (by omega)))
      rw [List.append_nil] at last
      exact .inl ⟨g, follow gs, isGroup, intercalate_cons _ _ _, last⟩
    · rw [List.length_nil] at count
      exact .inr ⟨_, rfl, blocks_gap others (by omega)⟩
    · obtain ⟨isGroup, groups⟩ := List.forall_mem_cons.mp groups
      rw [List.length_cons] at count
      refine .inl ⟨g, follow gs ++ ([colon, colon] ++ [colon].intercalate rs), isGroup, ?_,
        blocks_follow groups (blocks_gap others (by omega))⟩
      rw [intercalate_cons, follow, List.append_assoc]

end Blocks

/-! ## The two parts of a text -/

section Parts

variable {str front text : List UInt8} {gs : List (List UInt8)} {ip : List Nat}

theorem Dotted.members (dotted : Dotted text ip) : byte '.' ∈ text ∧ colon ∉ text := by
  obtain ⟨parts, count, octets, rfl, _⟩ := dotted
  constructor
  · rcases parts with _ | ⟨first, _ | ⟨second, parts⟩⟩
    · contradiction
    · simp at count
    · rw [intercalate_cons]
      simp
  · intro member
    rcases mem_intercalate member with equal | ⟨part, listed, inside⟩
    · exact absurd equal (by decide)
    · exact absurd ((isDigits_iff.mp (octets part listed).1.1).2 _ inside) (by decide)

theorem Dotted.four (dotted : Dotted text ip) : ∃ a b c d, ip = [a, b, c, d] := by
  obtain ⟨parts, count, _, _, rfl⟩ := dotted
  rw [← List.length_map (f := value)] at count
  obtain ⟨a, b, c, d, equal⟩ := List.length_eq_four.mp count
  exact ⟨a, b, c, d, equal⟩

theorem dot_notMem_groups (groups : ∀ g ∈ gs, Group g) : byte '.' ∉ [colon].intercalate gs := by
  intro member
  rcases mem_intercalate member with equal | ⟨g, listed, inside⟩
  · exact absurd equal (by decide)
  · exact absurd ((groups g listed).2.2 _ inside) (by decide)

theorem dot_notMem_compressed {rs : List (List UInt8)} (groups : ∀ g ∈ gs, Group g)
    (others : ∀ g ∈ rs, Group g) :
    byte '.' ∉ [colon].intercalate gs ++ [colon, colon] ++ [colon].intercalate rs := by
  simp only [List.mem_append, not_or]
  exact ⟨⟨dot_notMem_groups groups, by decide⟩, dot_notMem_groups others⟩

theorem intercalate_concat (some_ : gs ≠ []) (text : List UInt8) :
    [colon].intercalate (gs ++ [text]) = [colon].intercalate gs ++ colon :: text := by
  cases gs with
  | nil => contradiction
  | cons g gs =>
      rw [List.cons_append, intercalate_cons, intercalate_cons, List.flatMap_append]
      simp

/-- Groups end with a digit. -/
theorem groups_end (groups : ∀ g ∈ gs, Group g) (some_ : gs ≠ []) :
    ∃ init c, [colon].intercalate gs = init ++ [c] ∧ c ≠ colon := by
  have last (g : List UInt8) (isGroup : Group g) : ∃ init c, g = init ++ [c] ∧ c ≠ colon := by
    have nonempty : g ≠ [] := List.ne_nil_of_length_pos isGroup.1
    refine ⟨_, _, (List.dropLast_concat_getLast nonempty).symm, fun equal => ?_⟩
    exact absurd (isGroup.2.2 _ (List.getLast_mem nonempty)) (by rw [equal]; decide)
  rcases List.eq_nil_or_concat gs with empty | ⟨front, g, rfl⟩
  · exact absurd empty some_
  · rw [List.concat_eq_append] at groups ⊢
    obtain ⟨init, c, equal, other⟩ := last g (groups g (by simp))
    by_cases single : front = []
    · subst single
      exact ⟨init, c, by rw [List.nil_append, intercalate_cons, equal]; simp, other⟩
    · rw [intercalate_concat single, equal]
      exact ⟨[colon].intercalate front ++ colon :: init, c, by simp, other⟩

/-- The bundled address starts behind the last colon in front of the first dot. -/
theorem ipv4Start_eq (noDot : byte '.' ∉ front) (ends : ∃ init, front = init ++ [colon])
    (dotted : Dotted text ip) : ipv4Start (front ++ text) = front.length := by
  obtain ⟨hasDot, noColon⟩ := dotted.members
  obtain ⟨init, rfl⟩ := ends
  have passes : ∀ c ∈ init ++ [colon], (c != byte '.') = true := by
    intro c member
    rw [bne_iff_ne]
    rintro rfl
    exact noDot member
  have back : ((text.takeWhile (· != byte '.')).reverse ++ (init ++ [colon]).reverse).takeWhile
      (· != colon) = (text.takeWhile (· != byte '.')).reverse := by
    apply (Stops.span _ _).1
    · rw [List.reverse_concat]
      exact .cons (by decide) _
    · intro c member
      rw [bne_iff_ne]
      rintro rfl
      exact noColon (List.takeWhile_subset _ (List.mem_reverse.mp member))
  rw [ipv4Start, List.takeWhile_append_of_pos passes, List.reverse_append, back,
    List.length_append, List.length_reverse]
  omega

/-- In front of the bundled address there is a colon, unless it stands at the start. -/
theorem ipv4Start_colon (some_ : 0 < ipv4Start str) :
    ∃ init, str.take (ipv4Start str) = init ++ [colon] ∧ byte '.' ∉ init := by
  have parts := List.takeWhile_append_dropWhile (p := (· != colon))
    (l := (str.takeWhile (· != byte '.')).reverse)
  have stops := stops_dropWhile (· != colon) (str.takeWhile (· != byte '.')).reverse
  have length : ipv4Start str
      = ((str.takeWhile (· != byte '.')).reverse.dropWhile (· != colon)).length := by
    have total := congrArg List.length parts
    rw [List.length_append, List.length_reverse] at total
    rw [ipv4Start]
    omega
  generalize (str.takeWhile (· != byte '.')).reverse.dropWhile (· != colon) = kept
    at parts stops length
  have whole := congrArg List.reverse parts
  rw [List.reverse_append, List.reverse_reverse] at whole
  have taken : str.take (ipv4Start str) = kept.reverse := by
    rw [length, ← List.takeWhile_append_dropWhile (p := (· != byte '.')) (l := str), ← whole,
      List.append_assoc, ← List.length_reverse, List.take_left]
  cases kept with
  | nil =>
      rw [length] at some_
      contradiction
  | cons c kept =>
      have isColon : c = colon := by simpa using stops c rfl
      refine ⟨kept.reverse, by rw [taken, List.reverse_cons, isColon], fun member => ?_⟩
      have inside : byte '.' ∈ str.takeWhile (· != byte '.') := by
        rw [← whole]
        simp [List.mem_reverse.mp member]
      simpa using List.mem_takeWhile_imp inside

/-- The text in front of a bundled address: its last colon belongs to it only in a `::`. -/
theorem ipv6_bundled {init : List UInt8} {e : UInt8} (dotted : Dotted text ip)
    (noDot : byte '.' ∉ init ++ [e]) :
    phpFilterValidateIpv6 (init ++ [e, colon] ++ text)
      = if e = colon then ipv6Loop (init.length + 3) true false 2 (init ++ [e, colon])
        else ipv6Loop (init.length + 2) true false 2 (init ++ [e]) := by
  have start : ipv4Start (init ++ [e, colon] ++ text) = init.length + 2 := by
    rw [ipv4Start_eq _ ⟨init ++ [e], by simp⟩ dotted, List.length_append]
    · rfl
    · intro member
      rw [show init ++ [e, colon] = init ++ [e] ++ [colon] by simp, List.mem_append] at member
      exact member.elim noDot (fun isColon => absurd (List.mem_singleton.mp isColon) (by decide))
  have before : read (init ++ [e, colon] ++ text) init.length = e := by simp [CString.read]
  have behind : (init ++ [e, colon] ++ text).drop (init.length + 2) = text :=
    List.drop_left' (by simp)
  have shorter : (init ++ [e, colon] ++ text).take (init.length + 1) = init ++ [e] := by
    rw [show init ++ [e, colon] ++ text = init ++ [e] ++ colon :: text by simp]
    exact List.take_left' (by simp)
  have longer : (init ++ [e, colon] ++ text).take (init.length + 2) = init ++ [e, colon] :=
    List.take_left' (by simp)
  rw [phpFilterValidateIpv6, if_neg (by simp), if_pos (by simp [dotted.members.1])]
  dsimp only
  rw [start, behind, if_neg (by rw [phpFilterValidateIpv4_iff.mpr dotted]; simp),
    if_neg (by omega), Nat.add_sub_cancel, before]
  by_cases second : e = colon
  · rw [if_neg (not_not_intro second), if_pos second, longer]
  · rw [if_pos second, if_neg second, show init.length + 2 - 1 = init.length + 1 by omega, shorter]

/-- A valid text with a dot has that shape. -/
theorem bundled_of_valid (dot : byte '.' ∈ str) (valid : phpFilterValidateIpv6 str = true) :
    ∃ init e text a b c d, str = init ++ [e, colon] ++ text ∧ Dotted text [a, b, c, d]
      ∧ byte '.' ∉ init ++ [e] := by
  obtain ⟨ip, accepted, long⟩ :
      ∃ ip, Dotted (str.drop (ipv4Start str)) ip ∧ ¬ipv4Start str < 2 := by
    rw [phpFilterValidateIpv6] at valid
    dsimp only at valid
    split_ifs at valid with _ invalid short
    all_goals
      obtain ⟨ip, known⟩ := Option.ne_none_iff_exists'.mp (mt Option.isNone_iff_eq_none.mpr invalid)
      exact ⟨ip, phpFilterValidateIpv4_iff.mp known, short⟩
  obtain ⟨a, b, c, d, rfl⟩ := accepted.four
  obtain ⟨init, front, noDot⟩ := @ipv4Start_colon str (by omega)
  have length := congrArg List.length front
  rw [List.length_append, List.length_take, List.length_singleton] at length
  have fits := List.length_pos_of_mem accepted.members.1
  rw [List.length_drop] at fits
  have some_ : init ≠ [] := List.ne_nil_of_length_pos (by omega)
  refine ⟨init.dropLast, init.getLast some_, _, a, b, c, d, ?_, accepted, ?_⟩
  · have whole := List.take_append_drop (ipv4Start str) str
    rw [front] at whole
    rw [show init.dropLast ++ [init.getLast some_, colon]
      = init.dropLast ++ [init.getLast some_] ++ [colon] by simp,
      List.dropLast_concat_getLast some_, whole]
  · rwa [List.dropLast_concat_getLast some_]

end Parts

/-! ## All texts -/

section Texts

variable {str : List UInt8} {groups : List Nat}

theorem Ending.of_no_dot {pieces : List (List UInt8)} (ending : Ending pieces groups)
    (noDot : byte '.' ∉ [colon].intercalate pieces) :
    (∀ g ∈ pieces, Group g) ∧ groups = pieces.map xvalue := by
  cases ending with
  | groups all => exact ⟨all, rfl⟩
  | @dotted gs text a b c d all bundled =>
      refine absurd ?_ noDot
      have member := bundled.members.1
      by_cases some_ : gs = []
      · subst some_
        rw [List.nil_append, intercalate_cons]
        simpa using member
      · rw [intercalate_concat some_]
        simp [member]

theorem ipv6_plain (noDot : byte '.' ∉ str) :
    phpFilterValidateIpv6 str = true ↔ ∃ groups, Spells str groups := by
  have loop := @ipv6Loop_texts (str.length + 1) 0 str (by decide) (Nat.lt_succ_self _)
  have colons (spelled : ∃ groups, Spells str groups) : colon ∈ str := by
    obtain ⟨groups, spelled⟩ := spelled
    cases spelled with
    | @full pieces groups ending eight =>
        obtain ⟨_, rfl⟩ := ending.of_no_dot noDot
        rw [List.length_map] at eight
        rcases pieces with _ | ⟨first, _ | ⟨second, pieces⟩⟩
        · contradiction
        · simp at eight
        · rw [intercalate_cons]
          simp
    | compressed => simp
  have texts : ipv6Loop (str.length + 1) true false 0 str = true ↔ ∃ groups, Spells str groups := by
    rw [loop]
    constructor
    · rintro (⟨gs, all, rfl, count⟩ | ⟨gs, rs, all, others, rfl, count⟩)
      · exact ⟨_, .full (.groups all) (by rw [List.length_map]; omega)⟩
      · rw [← List.append_assoc]
        exact ⟨_, .compressed all (.groups others) (by rw [List.length_map]; omega)⟩
    · rintro ⟨groups, spelled⟩
      cases spelled with
      | @full pieces groups ending eight =>
          obtain ⟨all, rfl⟩ := ending.of_no_dot noDot
          rw [List.length_map] at eight
          exact .inl ⟨pieces, all, rfl, by omega⟩
      | @compressed gs pieces groups all ending room =>
          obtain ⟨others, rfl⟩ := ending.of_no_dot fun member => noDot (by simp [member])
          rw [List.length_map] at room
          exact .inr ⟨gs, pieces, all, others, List.append_assoc _ _ _, by omega⟩
  rw [phpFilterValidateIpv6, if_neg noDot]
  split
  · next missing => exact ⟨nofun, fun spelled => absurd (colons spelled) missing⟩
  · exact texts

theorem ipv6_dotted_sound (dot : byte '.' ∈ str) (valid : phpFilterValidateIpv6 str = true) :
    ∃ groups, Spells str groups := by
  obtain ⟨init, e, text, a, b, c, d, rfl, dotted, noDot⟩ := bundled_of_valid dot valid
  rw [ipv6_bundled dotted noDot] at valid
  -- what is in front of the bundled address ends with a group or with the gap
  have last {gs : List (List UInt8)} (all : ∀ g ∈ gs, Group g) (some_ : gs ≠ [])
      {front before : List UInt8} {f : UInt8}
      (equal : front ++ [f] = before ++ [colon].intercalate gs) : f ≠ colon := by
    obtain ⟨init', c, ends, other⟩ := groups_end all some_
    rw [ends, ← List.append_assoc] at equal
    rw [List.singleton_inj.mp (List.append_inj' equal rfl).2]
    exact other
  by_cases second : e = colon
  · subst second
    rw [if_pos rfl, ipv6Loop_texts (by decide) (by simp)] at valid
    have front : init ++ [colon, colon] = init ++ [colon] ++ [colon] := by simp
    rcases valid with ⟨gs, all, equal, count⟩ | ⟨gs, rs, all, others, equal, count⟩
    · have some_ : gs ≠ [] := by rintro rfl; simp at count
      rw [front, ← List.nil_append ([colon].intercalate gs)] at equal
      exact absurd rfl (last all some_ equal)
    · by_cases none : rs = []
      · subst none
        have spelled := Spells.compressed all (@Ending.dotted [] text a b c d nofun dotted)
          (by simp at count ⊢; omega)
        rw [List.nil_append, intercalate_cons] at spelled
        rw [equal]
        exact ⟨_, by simpa using spelled⟩
      · rw [front, ← List.append_assoc] at equal
        exact absurd rfl (last others none equal)
  · rw [if_neg second, ipv6Loop_texts (by decide) (by simp)] at valid
    have front : init ++ [e, colon] ++ text = init ++ [e] ++ colon :: text := by simp
    rw [front]
    rcases valid with ⟨gs, all, equal, count⟩ | ⟨gs, rs, all, others, equal, count⟩
    · have some_ : gs ≠ [] := by rintro rfl; simp at count
      rw [equal, ← intercalate_concat some_]
      exact ⟨_, .full (.dotted all dotted) (by simp; omega)⟩
    · by_cases none : rs = []
      · subst none
        have ends : init ++ [e] = [colon].intercalate gs ++ [colon] ++ [colon] := by
          rw [equal]
          simp
        exact absurd (List.singleton_inj.mp (List.append_inj' ends rfl).2) second
      · rw [equal, List.append_assoc, List.append_assoc, ← intercalate_concat none,
          ← List.append_assoc]
        exact ⟨_, .compressed all (.dotted others dotted) (by simp; omega)⟩

theorem ipv6_dotted_complete (dot : byte '.' ∈ str) (spelled : Spells str groups) :
    phpFilterValidateIpv6 str = true := by
  -- the groups in front of the bundled address end with a digit
  have split {before text : List UInt8} {gs : List (List UInt8)} (all : ∀ g ∈ gs, Group g)
      (some_ : gs ≠ []) : ∃ init e, before ++ [colon].intercalate gs = init ++ [e] ∧ e ≠ colon
        ∧ before ++ ([colon].intercalate gs ++ colon :: text) = init ++ [e, colon] ++ text := by
    obtain ⟨init, e, equal, other⟩ := groups_end all some_
    rw [equal]
    exact ⟨before ++ init, e, by simp, other, by simp⟩
  cases spelled with
  | @full pieces groups ending eight =>
      cases ending with
      | groups all => exact absurd dot (dot_notMem_groups all)
      | @dotted gs text a b c d all dotted =>
          have some_ : gs ≠ [] := by rintro rfl; simp at eight
          obtain ⟨init, e, equal, other, whole⟩ := @split [] text gs all some_
          rw [List.nil_append] at equal whole
          rw [intercalate_concat some_, whole, ipv6_bundled dotted (equal ▸ dot_notMem_groups all),
            if_neg other, ipv6Loop_texts (by decide) (by simp)]
          exact .inl ⟨gs, all, equal.symm, by simp at eight; omega⟩
  | @compressed gs pieces groups all ending room =>
      cases ending with
      | groups others => exact absurd dot (dot_notMem_compressed all others)
      | @dotted rs text a b c d others dotted =>
          rw [List.length_append, List.length_map] at room
          simp only [List.length_cons, List.length_nil] at room
          by_cases none : rs = []
          · subst none
            rw [List.nil_append, intercalate_cons, List.flatMap_nil, List.append_nil,
              ipv6_bundled dotted, if_pos rfl, ipv6Loop_texts (by decide) (by simp)]
            · exact .inr ⟨gs, [], all, nofun, by simp, by simp at room ⊢; omega⟩
            · simp only [List.mem_append, not_or]
              exact ⟨dot_notMem_groups all, by decide⟩
          · obtain ⟨init, e, equal, other, whole⟩ :=
              @split ([colon].intercalate gs ++ [colon, colon]) text rs others none
            rw [intercalate_concat none, whole, ipv6_bundled dotted, if_neg other,
              ipv6Loop_texts (by decide) (by simp)]
            · exact .inr ⟨gs, rs, all, others, by rw [← equal, List.append_assoc], by omega⟩
            · rw [← equal]
              exact dot_notMem_compressed all others

theorem Spells.valid (spelled : Spells str groups) : phpFilterValidateIpv6 str = true := by
  by_cases dot : byte '.' ∈ str
  · exact ipv6_dotted_complete dot spelled
  · exact (ipv6_plain dot).mpr ⟨groups, spelled⟩

/-- The texts of addresses are accepted, and nothing else. -/
theorem phpFilterValidateIpv6_iff (str : List UInt8) :
    phpFilterValidateIpv6 str = true ↔ ∃ groups, Spells str groups := by
  refine ⟨fun valid => ?_, fun ⟨_, spelled⟩ => spelled.valid⟩
  by_cases dot : byte '.' ∈ str
  · exact ipv6_dotted_sound dot valid
  · exact (ipv6_plain dot).mp valid

end Texts

end PhpRuntime.Validation
