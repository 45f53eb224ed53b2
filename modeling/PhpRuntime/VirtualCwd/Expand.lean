import PhpRuntime.Foundation.CString
import PhpRuntime.Foundation.Segments

/-! # Expanding a path

`tsrm_realpath_r` and `virtual_file_ex` of `Zend/zend_virtual_cwd.c` on Unix, for `CWD_EXPAND`
and without a function that verifies the path: the file system and the cache are not asked
then. The buffer is rewritten in place, from its last segment backwards; `len` bytes of it are
the path, and as many as are returned are the result.
-/

namespace PhpRuntime.VirtualCwd

open Decimal CString Segments

/-! ## The functions -/

/-- `while (i > start && !IS_SLASH(path[i-1]))` -/
def segmentStart (path : List UInt8) (start : Nat) : Nat → Nat
  | 0 => 0
  | i + 1 => if start < i + 1 ∧ path[i]? ≠ some slash then segmentStart path start i else i + 1

/-- `while (j > start && !IS_SLASH(path[j]))` -/
def stepBack (path : List UInt8) (start : Nat) : Nat → Nat
  | 0 => 0
  | j + 1 =>
      if start < j + 1 ∧ path[j + 1]? ≠ some slash then stepBack path start j else j + 1

/-- `memcpy(path + j, bytes, ...)` -/
def copyTo (path : List UInt8) (j : Nat) (bytes : List UInt8) : List UInt8 :=
  path.take j ++ (bytes ++ path.drop (j + bytes.length))

def upSlash : List UInt8 := [dot, dot, slash]

/-- A leading `..` of a relative path is not removed by another one. -/
def keepLeading (path : List UInt8) (j : Nat) : List UInt8 × Nat :=
  if j = 0 ∧ path.take 3 = upSlash then
    (copyTo path 3 upSlash, 5)
  else if 0 < j ∧ (path.drop (j + 1)).take 3 = upSlash then
    (copyTo path (j + 4) upSlash, j + 6)
  else
    (path, j)

/-- Behind the recursion for `..`: the last segment of its result is taken away. -/
def goBack (start : Nat) (result : List UInt8 × Nat) : List UInt8 × Nat :=
  if start < result.2 then
    let j := stepBack result.1 start (result.2 - 1)
    if start = 0 then keepLeading result.1 j else (result.1, j)
  else if start = 0 ∧ result.2 = 0 then
    (copyTo result.1 0 upSlash, 2)
  else
    result

/-- `if (j > start) path[j++] = DEFAULT_SLASH;` -/
def separate (start : Nat) (result : List UInt8 × Nat) : List UInt8 × Nat :=
  if start < result.2 then (result.1.set result.2 slash, result.2 + 1) else result

/-- A segment is written behind the result, with the NUL behind it. -/
def push (maxPathLen : Nat) (tmp : List UInt8) (length : Nat) (result : List UInt8 × Nat) :
    Option (List UInt8 × Nat) :=
  if maxPathLen - 1 ≤ result.2 + length then none
  else some (copyTo result.1 result.2 tmp, result.2 + length)

/-- `tsrm_realpath_r`: the buffer and the length of the result, or none for -1. Each call and
each round has a shorter path. -/
def tsrmRealpathR (maxPathLen start : Nat) : Nat → List UInt8 → Nat → Option (List UInt8 × Nat)
  | 0, _, _ => none
  | fuel + 1, path, len =>
      if len ≤ start then
        some (path, start)
      else
        let i := segmentStart path start len
        let segment := (path.take len).drop i
        if i = len ∨ segment = [dot] then
          tsrmRealpathR maxPathLen start fuel path (i - 1)
        else if segment = [dot, dot] then
          if i - 1 ≤ start then
            some (path, if start = 0 then len else start)
          else
            (tsrmRealpathR maxPathLen start fuel path (i - 1)).map (goBack start)
        else
          let path := path.set len 0
          let tmp := path.take (len + 1)
          let front :=
            if i - 1 ≤ start then some (path, start)
            else (tsrmRealpathR maxPathLen start fuel path (i - 1)).map (separate start)
          front.bind (push maxPathLen (tmp.drop i) (len - i))

/-- `memcpy(resolved_path, ...)` with the length of the path. The path is a C string. -/
def joined (cwd path : List UInt8) : List UInt8 :=
  if path.head? = some slash ∨ cwd = [] then path
  else if cwd.getLast? = some slash then cwd ++ path
  else cwd ++ slash :: path

/-- The end of `virtual_file_ex`: `.` for nothing, and the slash that the path ended with. The
result is none for -1. -/
def closePath (maxPathLen start : Nat) (addSlash : Bool) (resolved : List UInt8) :
    Option (List UInt8) :=
  let resolved := if start = 0 ∧ resolved = [] then [dot] else resolved
  if addSlash ∧ resolved ≠ [] ∧ resolved.getLast? ≠ some slash then
    if maxPathLen - 1 ≤ resolved.length then none else some (resolved ++ [slash])
  else
    some resolved

/-- `virtual_file_ex` with `CWD_EXPAND`: the returned number and the directory of the state. -/
def virtualFileEx (maxPathLen : Nat) (cwd path : List UInt8) : Int × List UInt8 :=
  let path := cString path
  if path = [] ∨ maxPathLen - 1 ≤ path.length then
    (1, cwd)
  else if path.head? ≠ some slash ∧ cwd ≠ [] ∧
      maxPathLen - 1 ≤ path.length + cwd.length + 1 then
    (1, cwd)
  else
    let start := if path.head? ≠ some slash ∧ cwd = [] then 0 else 1
    let input := joined cwd path
    let resolved := input ++ List.replicate (maxPathLen - input.length) 0
    match tsrmRealpathR maxPathLen start (input.length + 1) resolved input.length with
    | none => (1, cwd)
    | some (resolved, length) =>
        match closePath maxPathLen start (input.getLast? = some slash) (resolved.take length) with
        | none => (-1, cwd)
        | some cwd => (0, cwd)

/-! ## The last segment -/

section LastSegment

variable {path : List UInt8} {len : Nat}

/-- What is in front of the last segment of an absolute path. -/
theorem segmentStart_spec (absolute : path.head? = some slash) (positive : 0 < len) :
    0 < segmentStart path 1 len ∧ segmentStart path 1 len ≤ len ∧
      path[segmentStart path 1 len - 1]? = some slash ∧
      ∀ k, segmentStart path 1 len ≤ k → k < len → path[k]? ≠ some slash := by
  induction len with
  | zero => exact absurd positive (Nat.lt_irrefl 0)
  | succ i induction =>
      rw [segmentStart]
      split_ifs with back
      · have spec := induction (by omega)
        refine ⟨spec.1, spec.2.1.trans (Nat.le_succ i), spec.2.2.1, ?_⟩
        intro k lower upper
        by_cases last : k = i
        · rw [last]
          exact back.2
        · exact spec.2.2.2 k lower (by omega)
      · refine ⟨Nat.succ_pos i, Nat.le_refl _, ?_, fun k lower upper => by omega⟩
        rw [Nat.add_sub_cancel]
        by_cases first : i = 0
        · rw [first, ← List.head?_eq_getElem?]
          exact absolute
        · by_contra other
          exact back ⟨by omega, other⟩

/-- The path in front of its last segment, a slash and the segment. -/
theorem split_last (absolute : path.head? = some slash) (positive : 0 < len)
    (inside : len ≤ path.length) :
    path.take len = path.take (segmentStart path 1 len - 1) ++
        slash :: (path.take len).drop (segmentStart path 1 len) ∧
      slash ∉ (path.take len).drop (segmentStart path 1 len) := by
  rcases segmentStart_spec absolute positive with ⟨lower, upper, isSlash, plain⟩
  generalize segmentStart path 1 len = i at lower upper isSlash plain
  rcases List.getElem?_eq_some_iff.mp isSlash with ⟨within, equal⟩
  constructor
  · have atSlash : (path.take len).drop (i - 1) = slash :: (path.take len).drop i := by
      have inTake : i - 1 < (path.take len).length := by
        rw [List.length_take]
        omega
      rw [List.drop_eq_getElem_cons inTake, List.getElem_take, equal, Nat.sub_add_cancel lower]
    rw [← atSlash]
    conv_lhs => rw [← List.take_append_drop (i - 1) (path.take len)]
    rw [List.take_take, Nat.min_eq_left (by omega)]
  · intro member
    rcases List.mem_iff_getElem?.mp member with ⟨k, atIndex⟩
    rw [List.getElem?_drop, List.getElem?_take] at atIndex
    split_ifs at atIndex with small
    exact plain (i + k) (Nat.le_add_right i k) small atIndex

end LastSegment

/-! ## The path that is left -/

/-- The segments that are left of a path: `.` stays, `..` goes back by one. -/
def remaining (text : List UInt8) : List (List UInt8) :=
  resolve [dot] [dot, dot] (segments slash text)

/-- An absolute path without empty segments, `.` and `..`. -/
def expanded (trailing : Bool) (text : List UInt8) : List UInt8 :=
  join slash true trailing (remaining text)

theorem remaining_whole (text : List UInt8) :
    ∀ part ∈ remaining text, part ≠ [] ∧ slash ∉ part :=
  fun _ member => mem_segments (mem_resolve member)

theorem remaining_skip (front : List UInt8) : remaining (front ++ [slash]) = remaining front := by
  rw [remaining, segments_append, segments_nil, List.append_nil]
  rfl

theorem remaining_last (front : List UInt8) {segment : List UInt8} (nonempty : segment ≠ [])
    (plain : slash ∉ segment) :
    remaining (front ++ slash :: segment) = walk [dot] [dot, dot] (remaining front) segment := by
  rw [remaining, segments_append, segments_single nonempty plain, resolve, List.foldl_concat]
  rfl

/-- The first two bytes of a path that starts with slashes have no segment. -/
theorem remaining_slashes {path : List UInt8} (absolute : path.head? = some slash) {n : Nat}
    (few : n ≤ 1) : remaining (path.take n) = [] := by
  cases path with
  | nil => cases absolute
  | cons head tail =>
      cases absolute
      cases n with
      | zero => rfl
      | succ n =>
          obtain rfl : n = 0 := by omega
          rfl

theorem join_slash (parts : List (List UInt8)) :
    join slash true true parts =
      join slash true false parts ++ if parts = [] then [] else [slash] := by
  cases parts with
  | nil => rfl
  | cons part more => simp [join]

theorem join_push (parts : List (List UInt8)) (part : List UInt8) :
    join slash true false (parts ++ [part]) = join slash true true parts ++ part := by
  rw [join_concat, join_trailing]

/-- Only the root is one byte. -/
theorem join_root_iff {parts : List (List UInt8)}
    (whole : ∀ part ∈ parts, part ≠ [] ∧ slash ∉ part) :
    (join slash true false parts).length = 1 ↔ parts = [] := by
  constructor
  · intro single
    induction parts using List.reverseRecOn with
    | nil => rfl
    | append_singleton parts part _ =>
        have nonempty := List.length_pos_iff.mpr (whole part (by simp)).1
        rw [join_push, join_trailing, if_pos rfl, List.length_append, List.length_append,
          List.length_singleton] at single
        omega
  · intro empty
    rw [empty]
    rfl

/-! ## Walking back -/

theorem stepBack_eq {path : List UInt8} {n j : Nat} (positive : 1 ≤ n) (lower : n ≤ j)
    (stop : n = 1 ∨ path[n]? = some slash)
    (plain : ∀ k, n < k → k ≤ j → path[k]? ≠ some slash) : stepBack path 1 j = n := by
  induction j with
  | zero => omega
  | succ j induction =>
      rw [stepBack]
      by_cases there : n = j + 1
      · rw [if_neg (by rw [← there]; rintro ⟨large, other⟩; exact stop.elim (by omega) other),
          there]
      · rw [if_pos ⟨by omega, plain (j + 1) (by omega) (Nat.le_refl _)⟩]
        exact induction (by omega) (fun k above below => plain k above (by omega))

/-- Walking back from its last byte removes the last segment of a path. -/
theorem stepBack_dropLast {path : List UInt8} {j : Nat} {parts : List (List UInt8)}
    (whole : ∀ part ∈ parts, part ≠ [] ∧ slash ∉ part) (inside : j ≤ path.length)
    (text : path.take j = join slash true false parts) (long : 1 < j) :
    path.take (stepBack path 1 (j - 1)) = join slash true false parts.dropLast ∧
      1 ≤ stepBack path 1 (j - 1) ∧ stepBack path 1 (j - 1) < j := by
  have size : j = (join slash true false parts).length := by
    rw [← text, List.length_take, Nat.min_eq_left inside]
  induction parts using List.reverseRecOn with
  | nil => exact absurd size (Nat.ne_of_gt long)
  | append_singleton parts part _ =>
      have last := whole part (by simp)
      have nonempty := List.length_pos_iff.mpr last.1
      rw [List.dropLast_concat]
      rw [join_push, join_slash] at text size
      rw [List.length_append, List.length_append] at size
      have positive : 1 ≤ (join slash true false parts).length := by
        simp [join]
      have bytes (k : Nat) (below : k < j) : path[k]? = (path.take j)[k]? := by
        rw [List.getElem?_take, if_pos below]
      have back : stepBack path 1 (j - 1) = (join slash true false parts).length := by
        apply stepBack_eq positive (by omega)
        · by_cases root : parts = []
          · rw [root]
            exact Or.inl rfl
          · rw [if_neg root] at text size
            right
            rw [bytes _ (by simp at size; omega), text]
            simp
        · intro k above below
          rw [bytes k (by omega), text]
          have behind : (join slash true false parts ++
              if parts = [] then [] else [slash]).length ≤ k := by
            rw [List.length_append]
            split_ifs <;> simp <;> omega
          rw [List.getElem?_append_right behind]
          intro isSlash
          exact last.2 (List.mem_of_getElem? isSlash)
      rw [back]
      refine ⟨?_, positive, by omega⟩
      have shorter : (join slash true false parts).length ≤ j := by omega
      rw [← Nat.min_eq_left shorter, ← List.take_take, text, List.append_assoc,
        List.take_left]

/-! ## The recursion -/

/-- What the function leaves for a text: the text that is left, in a buffer of the same size. -/
structure Expands (size : Nat) (text : List UInt8) (result : List UInt8 × Nat) : Prop where
  left : result.1.take result.2 = expanded false text
  size_eq : result.1.length = size
  positive : 1 ≤ result.2
  shorter : result.2 ≤ max 1 text.length

section Recursion

variable {path : List UInt8} {n : Nat} {text : List UInt8} {result : List UInt8 × Nat}

/-- Nothing is left. -/
theorem expands_root (absolute : path.head? = some slash) (empty : remaining text = []) :
    Expands path.length text (path, 1) := by
  refine ⟨?_, rfl, Nat.le_refl 1, Nat.le_max_left 1 _⟩
  rw [expanded, empty]
  cases path with
  | nil => cases absolute
  | cons head tail =>
      cases absolute
      rfl

/-- The byte at the end of the result is the first one exactly if nothing is left. -/
theorem Expands.root_iff (expands : Expands n text result) (inside : text.length < n) :
    result.2 = 1 ↔ remaining text = [] := by
  have shorter := expands.shorter
  have size : result.2 = (join slash true false (remaining text)).length := by
    rw [← expanded, ← expands.left, List.length_take, Nat.min_eq_left]
    rw [expands.size_eq]
    omega
  rw [size]
  exact join_root_iff (remaining_whole text)

/-- What does not count behind a text. -/
theorem Expands.skip {longer : List UInt8} (expands : Expands n text result)
    (same : remaining longer = remaining text) (shorter : text.length ≤ longer.length) :
    Expands n longer result := by
  refine ⟨?_, expands.size_eq, expands.positive, expands.shorter.trans (by omega)⟩
  rw [expands.left, expanded, expanded, same]

/-- `..` behind a text. -/
theorem Expands.up (expands : Expands n text result) (inside : text.length < n) :
    Expands n (text ++ [slash, dot, dot]) (goBack 1 result) := by
  simp only [goBack, Nat.one_ne_zero, false_and, if_false]
  have shorter := expands.shorter
  have left : remaining (text ++ [slash, dot, dot]) = (remaining text).dropLast :=
    remaining_last text (List.cons_ne_nil _ _) (by decide)
  split_ifs with long
  · have bound : result.2 ≤ result.1.length := by
      rw [expands.size_eq]
      omega
    rcases stepBack_dropLast (remaining_whole text) bound expands.left long with
      ⟨taken, positive, below⟩
    refine ⟨?_, expands.size_eq, positive, ?_⟩
    · rw [expanded, left]
      exact taken
    · rw [List.length_append]
      omega
  · have root : result.2 = 1 := Nat.le_antisymm (Nat.le_of_not_lt long) expands.positive
    have empty := (expands.root_iff inside).mp root
    refine ⟨?_, expands.size_eq, expands.positive, root.le.trans (Nat.le_max_left 1 _)⟩
    rw [expands.left, expanded, expanded, left, empty]
    rfl

/-- The separator in front of a segment that is kept. -/
theorem Expands.separator (expands : Expands n text result) (inside : text.length < n) :
    (separate 1 result).1.take (separate 1 result).2 = expanded true text ∧
      (separate 1 result).1.length = n ∧ (separate 1 result).2 ≤ text.length + 1 := by
  rw [separate]
  have shorter := expands.shorter
  have slashed : expanded true text =
      expanded false text ++ if remaining text = [] then [] else [slash] := join_slash _
  have rootIff := expands.root_iff inside
  split_ifs with long
  · have within : result.2 < result.1.length := by
      rw [expands.size_eq]
      omega
    refine ⟨?_, by rw [List.length_set, expands.size_eq], by dsimp only; omega⟩
    rw [slashed, if_neg (fun empty => Nat.ne_of_gt long (rootIff.mpr empty)), ← expands.left]
    rw [List.take_succ_eq_append_getElem (by rw [List.length_set]; exact within),
      List.getElem_set_self, List.take_set_of_le (Nat.le_refl _)]
  · have root : result.2 = 1 := Nat.le_antisymm (Nat.le_of_not_lt long) expands.positive
    refine ⟨?_, expands.size_eq, by omega⟩
    rw [slashed, if_pos (rootIff.mp root), List.append_nil]
    exact expands.left

theorem take_copyTo (path : List UInt8) {j : Nat} (inside : j ≤ path.length)
    (kept rest : List UInt8) :
    (copyTo path j (kept ++ rest)).take (j + kept.length) = path.take j ++ kept := by
  have size : (path.take j ++ kept).length = j + kept.length := by
    rw [List.length_append, List.length_take, Nat.min_eq_left inside]
  rw [copyTo, List.append_assoc, ← List.append_assoc, ← size, List.take_left]

theorem length_copyTo {path : List UInt8} {j : Nat} {bytes : List UInt8}
    (inside : j + bytes.length ≤ path.length) : (copyTo path j bytes).length = path.length := by
  simp [copyTo]
  omega

/-- A segment that is kept behind a text. -/
theorem expands_push {maxPathLen : Nat} {segment : List UInt8}
    (taken : result.1.take result.2 = expanded true text)
    (bound : result.2 ≤ text.length + 1)
    (inside : text.length + 1 + segment.length < result.1.length)
    (fits : text.length + 1 + segment.length < maxPathLen - 1)
    (nonempty : segment ≠ []) (plain : slash ∉ segment) (here : segment ≠ [dot])
    (up : segment ≠ [dot, dot]) :
    ∃ next, push maxPathLen (segment ++ [0]) segment.length result = some next ∧
      Expands result.1.length (text ++ slash :: segment) next := by
  have left : remaining (text ++ slash :: segment) = remaining text ++ [segment] := by
    rw [remaining_last text nonempty plain, walk, if_neg up, if_neg here]
  have positive := List.length_pos_iff.mpr nonempty
  refine ⟨_, by rw [push, if_neg (by omega)], ?_, length_copyTo ?_, ?_, ?_⟩
  · rw [take_copyTo _ (by omega), taken, expanded, expanded, left, join_push]
  · rw [List.length_append, List.length_singleton]
    omega
  · exact positive.trans_le (Nat.le_add_left _ _)
  · rw [List.length_append, List.length_cons]
    dsimp only
    omega

/-- What the recursion leaves in front of a segment that is kept. -/
theorem exists_front {maxPathLen fuel i : Nat} (absolute : path.head? = some slash)
    (inside : i - 1 < path.length) (lower : 0 < i)
    (recursion : ∃ result, tsrmRealpathR maxPathLen 1 fuel path (i - 1) = some result ∧
      Expands path.length (path.take (i - 1)) result) :
    ∃ front, (if i - 1 ≤ 1 then some (path, 1)
        else (tsrmRealpathR maxPathLen 1 fuel path (i - 1)).map (separate 1)) = some front ∧
      front.1.take front.2 = expanded true (path.take (i - 1)) ∧
      front.1.length = path.length ∧ front.2 ≤ i := by
  by_cases top : i - 1 ≤ 1
  · have root := (@expands_root path (path.take (i - 1)) absolute
      (remaining_slashes absolute top)).left
    refine ⟨(path, 1), if_pos top, ?_, rfl, lower⟩
    rw [root, expanded, expanded, remaining_slashes absolute top]
    rfl
  · rcases recursion with ⟨result, equal, expands⟩
    have frontLength : (path.take (i - 1)).length = i - 1 := by
      rw [List.length_take, Nat.min_eq_left inside.le]
    rcases expands.separator (by omega) with ⟨taken, size, bound⟩
    refine ⟨separate 1 result, by rw [if_neg top, equal]; rfl, taken, size, ?_⟩
    omega

/-- Every absolute path that fits is expanded. -/
theorem tsrmRealpathR_expands {maxPathLen fuel len : Nat} (path : List UInt8)
    (absolute : path.head? = some slash) (enough : len < fuel) (inside : len < path.length)
    (fits : len < maxPathLen - 1) :
    ∃ result, tsrmRealpathR maxPathLen 1 fuel path len = some result ∧
      Expands path.length (path.take len) result := by
  induction fuel generalizing path len with
  | zero => exact absurd enough (Nat.not_lt_zero len)
  | succ fuel induction =>
      by_cases few : len ≤ 1
      · exact ⟨(path, 1), by rw [tsrmRealpathR, if_pos few],
          expands_root absolute (remaining_slashes absolute few)⟩
      have spec := @segmentStart_spec path len absolute (by omega)
      rcases @split_last path len absolute (by omega) inside.le with ⟨split, plain⟩
      have lower := spec.1
      have upper := spec.2.1
      rw [tsrmRealpathR, if_neg few]
      dsimp only
      generalize segmentStart path 1 len = i at split plain lower upper ⊢
      have segmentLength : ((path.take len).drop i).length = len - i := by
        rw [List.length_drop, List.length_take, Nat.min_eq_left inside.le]
      have frontLength : (path.take (i - 1)).length = i - 1 := by
        rw [List.length_take, Nat.min_eq_left (by omega)]
      generalize segmentEq : (path.take len).drop i = segment at split plain segmentLength ⊢
      by_cases skipped : i = len ∨ segment = [dot]
      · rw [if_pos skipped]
        rcases @induction (i - 1) path absolute (by omega) (by omega) (by omega) with
          ⟨result, equal, expands⟩
        have same : remaining (path.take len) = remaining (path.take (i - 1)) := by
          rw [split]
          rcases skipped with empty | isDot
          · rw [List.eq_nil_of_length_eq_zero (by omega : segment.length = 0)]
            exact remaining_skip _
          · rw [isDot, remaining_last _ (by simp) (by decide)]
            rfl
        refine ⟨result, equal, expands.skip same ?_⟩
        rw [frontLength, List.length_take]
        omega
      rw [if_neg skipped]
      by_cases up : segment = [dot, dot]
      · -- the front is expanded first, and what is left of it loses its last segment
        rw [if_pos up, split, up]
        by_cases top : i - 1 ≤ 1
        · rw [if_pos top, if_neg Nat.one_ne_zero]
          refine ⟨_, rfl, expands_root absolute ?_⟩
          rw [remaining_last _ (List.cons_ne_nil _ _) (by decide), remaining_slashes absolute top]
          rfl
        · rw [if_neg top]
          rcases @induction (i - 1) path absolute (by omega) (by omega) (by omega) with
            ⟨result, equal, expands⟩
          exact ⟨_, by rw [equal]; rfl, expands.up (by omega)⟩
      · -- the recursion rewrites the buffer in front, and the saved segment goes behind its result
        rw [if_neg up]
        have nonempty : segment ≠ [] := by
          intro empty
          rw [empty, List.length_nil] at segmentLength
          exact skipped (Or.inl (by omega))
        have saved : ((path.set len 0).take (len + 1)).drop i = segment ++ [0] := by
          rw [List.take_succ_eq_append_getElem (by rw [List.length_set]; exact inside),
            List.getElem_set_self, List.take_set_of_le (Nat.le_refl _),
            List.drop_append_of_le_length (by rw [List.length_take]; omega), segmentEq]
        have absoluteSet : (path.set len 0).head? = some slash := by
          rw [List.head?_eq_getElem?, List.getElem?_set_ne (by omega), ← List.head?_eq_getElem?]
          exact absolute
        have sizeSet : (path.set len 0).length = path.length := List.length_set
        have frontSet : (path.set len 0).take (i - 1) = path.take (i - 1) :=
          List.take_set_of_le (by omega)
        rcases exists_front absoluteSet (by omega) lower
          (@induction (i - 1) (path.set len 0) absoluteSet (by omega) (by omega) (by omega)) with
          ⟨front, equal, taken, size, bound⟩
        rw [frontSet] at taken
        rw [saved, equal, Option.bind_some, split, ← segmentLength, ← sizeSet, ← size]
        exact expands_push taken (by omega) (by omega) (by omega) nonempty plain
          (fun isDot => skipped (Or.inr isDot)) up

end Recursion

/-! ## The whole function -/

section Whole

variable {maxPathLen : Nat} {cwd path : List UInt8}

/-- Only the root ends in a slash. -/
theorem getLast?_expanded (text : List UInt8) :
    (expanded false text).getLast? = some slash ↔ remaining text = [] := by
  have whole := remaining_whole text
  rw [expanded]
  generalize remaining text = parts at whole
  induction parts using List.reverseRecOn with
  | nil => exact iff_of_true rfl rfl
  | append_singleton parts part _ =>
      have last := whole part (by simp)
      rw [join_push, List.getLast?_append_of_ne_nil _ last.1]
      apply iff_of_false
      · intro isSlash
        exact last.2 (List.mem_of_getLast? isSlash)
      · simp

theorem closePath_expanded (trailing : Bool) {text : List UInt8}
    (fits : (expanded false text).length < maxPathLen - 1) :
    closePath maxPathLen 1 trailing (expanded false text) = some (expanded trailing text) := by
  have nonempty : expanded false text ≠ [] := by
    simp [expanded, join]
  simp only [closePath, Nat.one_ne_zero, false_and, if_false]
  have slashed : expanded true text =
      expanded false text ++ if remaining text = [] then [] else [slash] := join_slash _
  cases trailing with
  | false => simp
  | true =>
      by_cases root : remaining text = []
      · rw [if_neg (fun all => all.2.2 ((getLast?_expanded text).mpr root)), slashed, if_pos root,
          List.append_nil]
      · rw [if_pos ⟨rfl, nonempty, fun last => root ((getLast?_expanded text).mp last)⟩,
          if_neg (Nat.not_le.mpr fits), slashed, if_neg root]

theorem ne_nil_of_absolute (absolute : cwd.head? = some slash) : cwd ≠ [] := by
  intro empty
  rw [empty] at absolute
  cases absolute

/-- The directory and the path with a slash between them have the segments of what the code
joins. -/
theorem remaining_joined (absolute : cwd.head? = some slash) :
    remaining (joined cwd path) =
      remaining (if path.head? = some slash then path else cwd ++ slash :: path) := by
  have nonempty := ne_nil_of_absolute absolute
  by_cases isAbsolute : path.head? = some slash
  · rw [joined, if_pos (Or.inl isAbsolute), if_pos isAbsolute]
  · rw [joined, if_neg (fun either => either.elim isAbsolute nonempty), if_neg isAbsolute]
    split_ifs with ends
    · rcases List.getLast?_eq_some_iff.mp ends with ⟨front, equal⟩
      rw [remaining, remaining, segments_append cwd, equal, List.append_assoc,
        List.singleton_append, segments_append front path, segments_append front [], segments_nil,
        List.append_nil]
    · rfl

theorem joined_spec (absolute : cwd.head? = some slash) (nonempty : path ≠ []) :
    (joined cwd path).head? = some slash ∧
      (joined cwd path).getLast? = path.getLast? ∧
      (joined cwd path).length ≤ cwd.length + path.length + 1 := by
  have cwdNonempty := ne_nil_of_absolute absolute
  rw [joined]
  split_ifs with alone ends
  · exact ⟨alone.resolve_right cwdNonempty, rfl, by omega⟩
  · refine ⟨?_, List.getLast?_append_of_ne_nil cwd nonempty, by rw [List.length_append]; omega⟩
    rw [List.head?_append_of_ne_nil cwd cwdNonempty]
    exact absolute
  · refine ⟨?_, ?_, by rw [List.length_append, List.length_cons]; omega⟩
    · rw [List.head?_append_of_ne_nil cwd cwdNonempty]
      exact absolute
    · rw [List.getLast?_append_of_ne_nil cwd (List.cons_ne_nil _ _),
        List.getLast?_cons_of_ne_nil nonempty]

/-- Under an absolute directory, every path that fits with it is expanded: the segments of the
path, behind those of the directory if it is relative, without the empty ones and `.`, and each
`..` with the one before it removed; and a slash at the end if the path has one and a segment
is left. -/
theorem virtualFileEx_expands (absolute : cwd.head? = some slash)
    (nonempty : cString path ≠ [])
    (fits : cwd.length + (cString path).length + 1 < maxPathLen - 1) :
    virtualFileEx maxPathLen cwd path =
      (0, join slash true ((cString path).getLast? = some slash)
        (resolve [dot] [dot, dot] (segments slash
          (if (cString path).head? = some slash then cString path
            else cwd ++ slash :: cString path)))) := by
  have cwdNonempty := ne_nil_of_absolute absolute
  have same := @remaining_joined cwd (cString path) absolute
  rcases joined_spec absolute nonempty with ⟨head, last, bound⟩
  rw [virtualFileEx]
  generalize joined cwd (cString path) = input at same head last bound
  have text : (input ++ List.replicate (maxPathLen - input.length) 0).take input.length = input :=
    List.take_left
  have size : (input ++ List.replicate (maxPathLen - input.length) 0).length = maxPathLen := by
    rw [List.length_append, List.length_replicate]
    omega
  have headPadded : (input ++ List.replicate (maxPathLen - input.length) 0).head? = some slash := by
    rw [List.head?_append, head]
    rfl
  rcases @tsrmRealpathR_expands maxPathLen (input.length + 1) input.length _ headPadded
    (Nat.lt_succ_self _) (by omega) (by omega) with ⟨result, equal, expands⟩
  have shorter := expands.shorter
  rw [text] at expands shorter
  have short : (expanded false input).length < maxPathLen - 1 := by
    rw [← expands.left, List.length_take]
    omega
  rw [if_neg (fun either => either.elim nonempty (by omega)),
    if_neg (fun all => absurd all.2.2 (by omega)), if_neg (fun both => cwdNonempty both.2)]
  dsimp only
  rw [equal]
  dsimp only
  rw [expands.left, closePath_expanded _ short, last, expanded, same]
  rfl

/-- A relative path with each kind of segment. -/
theorem virtualFileEx_expands_dots :
    virtualFileEx 24 ("/a/b".toList.map byte) ("..//./c/../d/".toList.map byte) =
      (0, "/a/d/".toList.map byte) :=
  (virtualFileEx_expands (by decide) (by decide) (by decide)).trans (by decide)

end Whole

end PhpRuntime.VirtualCwd
