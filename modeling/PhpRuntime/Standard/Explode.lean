import PhpRuntime.Foundation.Calls
import PhpRuntime.Foundation.Cuts
import PhpRuntime.Foundation.Decimal
import PhpRuntime.Foundation.Integers
import PhpRuntime.Operators.Memnstr

/-! # Splitting strings and joining them

`php_explode`, `php_explode_negative_limit`, `explode` and `php_implode` of
`ext/standard/string.c`. A pointer into the string is the part of the string behind it, or an
offset where it is kept in the table of positions.
-/

namespace PhpRuntime.Standard

open Calls Cuts Decimal Integers Operators

/-! ## The functions -/

section Program

variable (delim : List UInt8)

/-- The strings that the `do` loop and the end of `php_explode` add; the delimiter is found `p2`
bytes behind `p1`. -/
def explodeLoop : Nat → List UInt8 → Nat → Int → Option (List (List UInt8))
  | 0, _, _, _ => none
  | fuel + 1, p1, p2, limit =>
      let behind := p1.drop (p2 + delim.length)
      match zendMemnstr behind delim with
      | none => none
      | some none => some [p1.take p2, behind]
      | some (some next) =>
          if limit - 1 > 1 then
            (explodeLoop fuel behind next (limit - 1)).map (p1.take p2 :: ·)
          else some [p1.take p2, behind]

/-- `php_explode` -/
def phpExplode (str : List UInt8) (limit : Int) : Option (List (List UInt8)) :=
  match zendMemnstr str delim with
  | none => none
  | some none => some [str]
  | some (some p2) => explodeLoop delim (str.length + 1) str p2 limit

/-- `EXPLODE_ALLOC_STEP` -/
def explodeAllocStep : Int := 64

/-- The size of the table before a position is added to `found` others. -/
def tableSize (allocated : Int) (found : Nat) : Int :=
  if found ≥ allocated then int (found + explodeAllocStep) else allocated

/-- The loop that fills the table; a negative `allocated` is a size that cannot be had. -/
def positionsLoop (str : List UInt8) : Nat → Nat → Int → List Nat → Option (List Nat)
  | 0, _, _, _ => none
  | fuel + 1, p2, allocated, positions =>
      let allocated := tableSize allocated positions.length
      if allocated < 0 then none
      else
        let p1 := p2 + delim.length
        match zendMemnstr (str.drop p1) delim with
        | none => none
        | some none => some (positions ++ [p1])
        | some (some next) => positionsLoop str fuel (p1 + next) allocated (positions ++ [p1])

/-- The string from one position to the next, without the delimiter in front of that. -/
def positionString (str : List UInt8) (positions : List Nat) (i : Nat) : Option (List UInt8) := do
  let start ← positions[i]?
  let next ← positions[i + 1]?
  return (str.drop start).take (next - delim.length - start)

/-- `php_explode_negative_limit` -/
def phpExplodeNegativeLimit (str : List UInt8) (limit : Int) : Option (List (List UInt8)) :=
  match zendMemnstr str delim with
  | none => none
  | some none => some []
  | some (some p2) => do
      let positions ← positionsLoop delim str (str.length + 1) p2 explodeAllocStep [0]
      let toReturn := limit + positions.length
      (List.range toReturn.toNat).mapM (positionString delim str positions)

/-- `explode`; the limit of a call without one is `longMax`. -/
def explode (str : List UInt8) (limit : Int) : Outcome (List (List UInt8)) :=
  if delim.length = 0 then .warning "Empty delimiter"
  else if str.length = 0 then .returned (if limit ≥ 0 then [[]] else [])
  else if limit > 1 then .ofOption (phpExplode delim str limit)
  else if limit < 0 then .ofOption (phpExplodeNegativeLimit delim str limit)
  else .returned [str]

/-- An element of the array that is joined; doubles, objects and arrays are given by what they
are converted to. -/
inductive Element where
  | string (bytes : List UInt8)
  | long (n : Int)
  | bool (value : Bool)
  | null
  | other (converted : List UInt8)

/-- What is appended for an element. -/
def Element.printed : Element → List UInt8
  | string bytes => bytes
  | long n => (if n < 0 then [byte '-'] else []) ++ print 20 n.natAbs []
  | bool value => if value then [byte '1'] else []
  | null => []
  | other converted => converted

/-- The loop over the elements, `i` of which have been appended. Both counters are `int`s: for
fewer than `2 ^ 32` elements they are the same exactly where the numbers are. -/
def implodeLoop (numelems : Nat) : List Element → Nat → List UInt8
  | [], _ => []
  | element :: elements, i =>
      element.printed ++ ((if i + 1 ≠ numelems then delim else []) ++
        implodeLoop numelems elements (i + 1))

/-- `php_implode`: the bytes, and the length of the returned string. -/
def phpImplode (elements : List Element) : List UInt8 × Int :=
  let implstr := implodeLoop delim elements.length elements 0
  (implstr, int implstr.length)

end Program

/-! ## Joining -/

section Joining

variable {delim : List UInt8}

theorem implodeLoop_strings {pieces : List (List UInt8)} {numelems i : Nat}
    (count : i + pieces.length = numelems) :
    implodeLoop delim numelems (pieces.map .string) i = List.intercalate delim pieces := by
  induction pieces generalizing i with
  | nil => rfl
  | cons piece pieces induction =>
      rw [List.length_cons] at count
      rw [List.map_cons, implodeLoop, Element.printed, induction (by omega)]
      by_cases isLast : pieces = []
      · rw [isLast, List.length_nil] at count
        rw [isLast, if_neg (by omega)]
        simp
      · have positive := List.length_pos_of_ne_nil isLast
        rw [if_pos (by omega), intercalate_cons isLast]

theorem phpImplode_strings {s : List UInt8} {pieces : List (List UInt8)}
    (isInt : s.length < 2 ^ 31) (joined : List.intercalate delim pieces = s) :
    phpImplode delim (pieces.map .string) = (s, (s.length : Int)) := by
  rw [phpImplode, List.length_map, implodeLoop_strings (Nat.zero_add _), joined, int_of_lt isInt]

end Joining

/-! ## Splitting with a positive limit -/

/-- The first pieces up to a limit, the rest of the string being the last one. -/
def limited (delim : List UInt8) (k : Nat) (pieces : List (List UInt8)) : List (List UInt8) :=
  if pieces.length ≤ k then pieces
  else pieces.take (k - 1) ++ [List.intercalate delim (pieces.drop (k - 1))]

section Limits

variable {delim : List UInt8} {pieces : List (List UInt8)}

theorem limited_cons {piece : List UInt8} {k : Nat} (positive : 1 ≤ k) :
    limited delim (k + 1) (piece :: pieces) = piece :: limited delim k pieces := by
  rcases Nat.exists_eq_add_of_le' positive with ⟨k, rfl⟩
  simp only [limited, List.length_cons, Nat.add_le_add_iff_right, Nat.add_sub_cancel]
  split_ifs <;> simp

theorem intercalate_limited {k : Nat} (nonempty : pieces ≠ []) :
    List.intercalate delim (limited delim k pieces) = List.intercalate delim pieces := by
  rw [limited]
  split_ifs with few
  · rfl
  · have positive := List.length_pos_of_ne_nil nonempty
    have joined := @intercalate_drop _ delim (pieces.take (k - 1) ++
      [List.intercalate delim (pieces.drop (k - 1))]) (k - 1) (by simp; omega)
    rw [← joined, List.take_append_of_le_length (by simp; omega), List.take_take,
      Nat.min_self, List.drop_append_of_le_length (by simp; omega), List.drop_take]
    simpa using intercalate_drop (d := delim) (show k - 1 < pieces.length by omega)

variable {front back : List UInt8}

theorem drop_front : (front ++ (delim ++ back)).drop (front.length + delim.length) = back := by
  rw [← List.drop_drop, List.drop_left, List.drop_left]

theorem explodeLoop_eq (nonempty : delim ≠ []) (cut : Cut id delim back pieces) {fuel k : Nat}
    (enough : pieces.length ≤ fuel) (positive : 1 ≤ k) :
    explodeLoop delim fuel (front ++ (delim ++ back)) front.length (k + 1) =
      some (limited delim (k + 1) (front :: pieces)) := by
  have some_ := cut.length_pos
  rcases Nat.exists_eq_add_of_le' (Nat.le_trans some_ enough) with ⟨fuel, rfl⟩
  induction cut generalizing front fuel k with
  | @whole back absent =>
      have search := zendMemnstr_absent nonempty absent
      rw [List.map_id, List.map_id] at search
      rw [explodeLoop, drop_front, List.take_left, search, limited, if_pos]
      simpa using positive
  | @next inner found back pieces same first rest induction =>
      have search := zendMemnstr_found nonempty same first
      rw [List.map_id, List.map_id] at search same
      subst same
      rw [limited_cons positive, explodeLoop, drop_front, List.take_left, search,
        Int.add_sub_cancel]
      dsimp only
      split_ifs with more
      · -- one more occurrence is cut off
        rcases Nat.exists_eq_add_of_le' (show 2 ≤ k by omega) with ⟨k, rfl⟩
        have positive := rest.length_pos
        rw [List.length_cons] at enough
        rcases Nat.exists_eq_add_of_le' (show 1 ≤ fuel by omega) with ⟨fuel, rfl⟩
        have later := @induction inner (k + 1) (by omega) positive fuel (by omega)
        rw [Int.natCast_succ, later]
        rfl
      · have isOne : k = 1 := by omega
        have several := rest.length_pos
        rw [isOne, limited, if_neg (by rw [List.length_cons]; omega)]
        simp [intercalate_cons rest.ne_nil, rest.intercalate]

/-- `php_explode` cuts off all pieces up to the limit. -/
theorem phpExplode_eq {str : List UInt8} (nonempty : delim ≠ []) (cut : Cut id delim str pieces)
    {k : Nat} (positive : 1 ≤ k) :
    phpExplode delim str (k + 1) = some (limited delim (k + 1) pieces) := by
  have enough := cut.length_le nonempty
  rw [phpExplode]
  cases cut with
  | whole absent =>
      have search := zendMemnstr_absent nonempty absent
      rw [List.map_id, List.map_id] at search
      rw [search, limited, if_pos]
      simp
  | @next front found back pieces same first rest =>
      have search := zendMemnstr_found nonempty same first
      rw [List.map_id, List.map_id] at search same
      subst same
      rw [search]
      exact explodeLoop_eq nonempty rest (Nat.le_of_succ_le enough) positive

end Limits

/-! ## Splitting with a negative limit -/

/-- Where the pieces start, the first of them at an offset. -/
def starts (delim : List UInt8) : Nat → List (List UInt8) → List Nat
  | _, [] => []
  | start, piece :: pieces => start :: starts delim (start + piece.length + delim.length) pieces

section Positions

variable {delim str : List UInt8} {pieces : List (List UInt8)}

theorem getElem?_starts {start i : Nat} (inside : i < pieces.length) :
    (starts delim start pieces)[i]? =
      some (start + ((pieces.take i).flatMap (· ++ delim)).length) := by
  induction pieces generalizing start i with
  | nil => cases inside
  | cons piece pieces induction =>
      cases i with
      | zero => rfl
      | succ i =>
          rw [starts, List.getElem?_cons_succ, induction (Nat.lt_of_succ_lt_succ inside)]
          simp [Nat.add_assoc]

theorem length_starts (start : Nat) : (starts delim start pieces).length = pieces.length := by
  induction pieces generalizing start with
  | nil => rfl
  | cons piece pieces induction => rw [starts, List.length_cons, List.length_cons, induction]

/-- The table grows in steps of 64, and fails at the last step below `2 ^ 31`. -/
theorem tableSize_cases {allocated : Int} {found : Nat}
    (inSteps : allocated % 64 = 0 ∧ found ≤ allocated ∧ allocated < 2 ^ 31) :
    (tableSize allocated found < 0 ∧ found = 2 ^ 31 - 64) ∨
      (0 ≤ tableSize allocated found ∧ tableSize allocated found % 64 = 0 ∧
        found + 1 ≤ tableSize allocated found ∧ tableSize allocated found < 2 ^ 31) := by
  have spec := int_spec (found + explodeAllocStep)
  simp only [tableSize, explodeAllocStep] at spec ⊢
  split_ifs <;> omega

/-- The table is filled, as long as its size is an `int`. -/
theorem positionsLoop_eq (nonempty : delim ≠ []) {p2 : Nat} {allocated : Int}
    {positions : List Nat} (cut : Cut id delim (str.drop (p2 + delim.length)) pieces) {fuel : Nat}
    (enough : pieces.length ≤ fuel)
    (inSteps : allocated % 64 = 0 ∧ positions.length ≤ allocated ∧ allocated < 2 ^ 31) :
    positionsLoop delim str fuel p2 allocated positions =
      if positions.length + pieces.length ≤ 2 ^ 31 - 64 then
        some (positions ++ starts delim (p2 + delim.length) pieces)
      else none := by
  rcases Nat.exists_eq_add_of_le' (Nat.le_trans cut.length_pos enough) with ⟨fuel, rfl⟩
  generalize isRest : str.drop (p2 + delim.length) = rest at cut
  induction cut generalizing p2 allocated positions fuel with
  | @whole rest absent =>
      have search := zendMemnstr_absent nonempty absent
      rw [List.map_id, List.map_id] at search
      rw [positionsLoop]
      dsimp only
      rw [isRest, search]
      rcases tableSize_cases inSteps with ⟨fails, isLast⟩ | ⟨fits, _, room, small⟩
      · rw [if_pos fails, if_neg (by simp only [List.length_singleton]; omega)]
      · rw [if_neg (by omega), if_pos (by simp only [List.length_singleton]; omega)]
        rfl
  | @next inner found back pieces same first cut induction =>
      have search := zendMemnstr_found nonempty same first
      rw [List.map_id, List.map_id] at search same
      subst same
      have behind : str.drop (p2 + found.length + inner.length + found.length) = back := by
        rw [Nat.add_assoc (p2 + found.length), ← List.drop_drop, isRest, drop_front]
      rw [List.length_cons] at enough
      rw [positionsLoop, List.length_cons]
      dsimp only
      rw [isRest, search]
      rcases tableSize_cases inSteps with ⟨fails, isLast⟩ | ⟨fits, steps, room, small⟩
      · rw [if_pos fails, if_neg (by omega)]
      · rw [if_neg (by omega)]
        dsimp only
        rcases Nat.exists_eq_add_of_le' (Nat.le_trans cut.length_pos
          (show pieces.length ≤ fuel by omega)) with ⟨fuel, rfl⟩
        have continued := @induction _ _ (positions ++ [p2 + found.length])
          ⟨steps, by simpa using room, small⟩ fuel (by omega) behind
        rw [continued, List.length_append, List.length_singleton, List.append_assoc]
        simp only [Nat.add_right_comm _ 1, Nat.add_assoc, starts, List.singleton_append]

/-- A piece is what stands between its position and the next one. -/
theorem positionString_starts (cut : Cut id delim str pieces) {i : Nat}
    (inside : i + 1 < pieces.length) :
    positionString delim str (starts delim 0 pieces) i = pieces[i]? := by
  have parts := @intercalate_drop _ delim pieces i (Nat.lt_of_succ_lt inside)
  have isPiece := List.getElem?_eq_getElem (Nat.lt_of_succ_lt inside)
  have isNext := @getElem?_starts delim pieces 0 (i + 1) inside
  rw [cut.intercalate, List.drop_eq_getElem_cons (Nat.lt_of_succ_lt inside),
    intercalate_cons (List.ne_nil_of_length_pos (by rw [List.length_drop]; omega))] at parts
  rw [List.take_add_one, isPiece, List.flatMap_append, List.length_append] at isNext
  rw [positionString, getElem?_starts (Nat.lt_of_succ_lt inside), isNext, isPiece]
  generalize (pieces.take i).flatMap (· ++ delim) = before at parts
  simp only [Option.bind_eq_bind, Option.bind_some, Option.toList_some, List.flatMap_singleton,
    List.length_append, Nat.zero_add, pure]
  rw [← Nat.add_assoc, Nat.add_sub_cancel, Nat.add_sub_cancel_left, ← parts, List.drop_left,
    List.take_left]

theorem mapM_range {f : Nat → Option (List UInt8)} {n : Nat} (few : n ≤ pieces.length)
    (isPiece : ∀ i < n, f i = pieces[i]?) : (List.range n).mapM f = some (pieces.take n) := by
  induction n with
  | zero => rfl
  | succ n induction =>
      have before := induction (Nat.le_of_succ_le few) fun i below =>
        isPiece i (Nat.lt_succ_of_lt below)
      have here := isPiece n (Nat.lt_succ_self n)
      rw [List.getElem?_eq_getElem few] at here
      rw [List.range_succ, List.mapM_append, before, List.take_add_one,
        List.getElem?_eq_getElem few]
      simp [here]

/-- `php_explode_negative_limit` leaves out the last pieces, if the table can be allocated. -/
theorem phpExplodeNegativeLimit_eq (nonempty : delim ≠ []) (cut : Cut id delim str pieces)
    {k : Nat} (positive : 1 ≤ k) :
    phpExplodeNegativeLimit delim str (-k) =
      if pieces.length ≤ 2 ^ 31 - 64 then some (pieces.take (pieces.length - k)) else none := by
  have enough := cut.length_le nonempty
  have whole := cut
  rw [phpExplodeNegativeLimit]
  cases cut with
  | whole absent =>
      have search := zendMemnstr_absent nonempty absent
      rw [List.map_id, List.map_id] at search
      rw [search, List.length_singleton, if_pos (by decide), Nat.sub_eq_zero_of_le positive]
      rfl
  | @next front found back pieces same first rest =>
      have search := zendMemnstr_found nonempty same first
      rw [List.map_id, List.map_id] at search same
      subst same
      have table := @positionsLoop_eq found (front ++ (found ++ back)) pieces nonempty front.length
        explodeAllocStep [0] (drop_front ▸ rest) _ (Nat.le_of_succ_le enough) (by decide)
      rw [search]
      dsimp only
      rw [table, List.length_singleton, List.length_cons, Nat.add_comm 1]
      split_ifs with few
      · have isStarts : [0] ++ starts found (front.length + found.length) pieces =
            starts found 0 (front :: pieces) := by
          rw [starts, Nat.zero_add]
          rfl
        have count : (-(k : Int) + (starts found 0 (front :: pieces)).length).toNat =
            pieces.length + 1 - k := by
          rw [length_starts, List.length_cons]
          omega
        rw [isStarts, Option.bind_eq_bind, Option.bind_some, count]
        refine mapM_range (by rw [List.length_cons]; omega) fun i below => ?_
        exact positionString_starts whole (by rw [List.length_cons]; omega)
      · rfl

end Positions

/-! ## The calls -/

section Calls

variable {delim str : List UInt8} {pieces : List (List UInt8)} {k : Nat}

theorem explode_positive (nonempty : delim ≠ []) (cut : Cut id delim str pieces)
    (positive : 1 ≤ k) : explode delim str k = .returned (limited delim k pieces) := by
  have hasDelim : ¬ delim.length = 0 := by simpa using nonempty
  have notNegative : ¬ (k : Int) < 0 := by omega
  rw [explode, if_neg hasDelim, if_neg notNegative, if_pos (Int.natCast_nonneg k)]
  split_ifs with empty several
  · rw [List.length_eq_zero_iff] at empty
    rw [cut.of_nil empty nonempty, limited, if_pos (by simpa using positive)]
  · rcases Nat.exists_eq_add_of_le' (show 2 ≤ k by omega) with ⟨k, rfl⟩
    have split := phpExplode_eq nonempty cut (show 1 ≤ k + 1 by omega)
    rw [Int.natCast_succ, split]
    rfl
  · have isOne : k = 1 := by omega
    rw [isOne, limited]
    split_ifs with single
    · have one := List.length_eq_one_iff.mp (Nat.le_antisymm single cut.length_pos)
      rcases one with ⟨piece, rfl⟩
      have joined := cut.intercalate
      rw [List.intercalate_singleton] at joined
      rw [joined]
    · simp [cut.intercalate]

theorem explode_negative (nonempty : delim ≠ []) (cut : Cut id delim str pieces)
    (positive : 1 ≤ k) :
    explode delim str (-k) = if pieces.length ≤ 2 ^ 31 - 64 then
      .returned (pieces.take (pieces.length - k)) else .stopped := by
  have hasDelim : ¬ delim.length = 0 := by simpa using nonempty
  rw [explode, if_neg hasDelim]
  by_cases empty : str.length = 0
  · rw [if_pos empty]
    rw [List.length_eq_zero_iff] at empty
    have isNil := cut.of_nil empty nonempty
    rw [if_neg (by omega), isNil, List.length_singleton, if_pos (by decide),
      Nat.sub_eq_zero_of_le positive]
    rfl
  · rw [if_neg empty, if_neg (by omega), if_pos (by omega),
      phpExplodeNegativeLimit_eq nonempty cut positive]
    split_ifs <;> rfl

end Calls

/-- What splitting and joining have to do with each other. -/
structure ExplodeLaws (delim str : List UInt8) (pieces : List (List UInt8)) : Prop where
  /-- The pieces are those of a call without a limit. -/
  all : explode delim str longMax = .returned pieces
  free : ∀ piece ∈ pieces, ¬ delim <:+: piece
  joined : phpImplode delim (pieces.map .string) = (str, (str.length : Int))
  positive : ∀ k : Nat, 0 < k → k ≤ longMax → ∃ parts, explode delim str k = .returned parts ∧
    phpImplode delim (parts.map .string) = (str, (str.length : Int)) ∧
    (pieces.length ≤ k → parts = pieces) ∧
    (k < pieces.length → ∃ rest, parts = pieces.take (k - 1) ++ [rest] ∧
      (pieces.take (k - 1)).flatMap (· ++ delim) ++ rest = str)
  /-- The last pieces are left out if there are not so many of them that the size of the table
  is no `int`. -/
  negative : ∀ k : Nat, 1 ≤ k → k ≤ 2 ^ 63 →
    (explode delim str (-k) = .returned (pieces.take (pieces.length - k)) ↔
      pieces.length ≤ 2 ^ 31 - 64)

theorem explode_laws (delim str : List UInt8) (nonempty : delim ≠ [])
    (isInt : str.length < 2 ^ 31) : ∃ pieces, ExplodeLaws delim str pieces := by
  rcases exists_cut id nonempty str with ⟨pieces, cut⟩
  have few := cut.length_le nonempty
  have atMost (k : Nat) (enough : pieces.length ≤ k) : limited delim k pieces = pieces :=
    if_pos enough
  have joined (k : Nat) : phpImplode delim ((limited delim k pieces).map .string) =
      (str, (str.length : Int)) :=
    phpImplode_strings isInt ((intercalate_limited cut.ne_nil).trans cut.intercalate)
  refine ⟨pieces, ?_, cut.free nonempty, phpImplode_strings isInt cut.intercalate, ?_, ?_⟩
  · have limit : longMax = (2 ^ 63 - 1 : Nat) := rfl
    rw [limit, explode_positive nonempty cut (by decide), atMost _ (by omega)]
  · intro k positive _
    refine ⟨_, explode_positive nonempty cut positive, joined k, atMost k, fun more => ?_⟩
    refine ⟨_, if_neg (Nat.not_le_of_lt more), ?_⟩
    rw [intercalate_drop (by omega), cut.intercalate]
  · intro k positive _
    rw [explode_negative nonempty cut positive]
    split_ifs with fits
    · exact ⟨fun _ => fits, fun _ => rfl⟩
    · exact ⟨nofun, fun small => absurd small fits⟩

/-- `aXaXa` with the delimiter `aXa`, which overlaps with itself. -/
theorem explode_laws_overlapping :
    explode [97, 88, 97] [97, 88, 97, 88, 97] longMax = .returned [[], [88, 97]] ∧
      ∃ pieces, ExplodeLaws [97, 88, 97] [97, 88, 97, 88, 97] pieces :=
  ⟨by decide, explode_laws [97, 88, 97] [97, 88, 97, 88, 97] (by decide) (by decide)⟩

/-- A string of `2 ^ 31 - 1` commas has a piece more than commas, and a call for all pieces but
the last one ends without a result. -/
theorem explode_commas :
    (List.replicate (2 ^ 31 - 1) (44 : UInt8)).length < 2 ^ 31 ∧
      explode [44] (List.replicate (2 ^ 31 - 1) 44) (-1) = .stopped := by
  generalize size : 2 ^ 31 - 1 = n
  have stops := @explode_negative [44] (List.replicate n 44) _ 1 (by simp) (cut_replicate id 44 n)
    (Nat.le_refl 1)
  rw [List.length_replicate, if_neg (by omega)] at stops
  exact ⟨by rw [List.length_replicate]; omega, stops⟩

end PhpRuntime.Standard
