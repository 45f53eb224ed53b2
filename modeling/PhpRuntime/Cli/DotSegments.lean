import PhpRuntime.Cli.Vpath
import PhpRuntime.Foundation.Segments

/-! # Dot segments

`normalize_vpath` leaves the segments that remain when each `..` has taken away the segment
before it, counted with their NUL bytes. `stat` gets a C string: a NUL cuts it, and what is
left of the last segment can be `.` or `..`.
-/

namespace PhpRuntime.Cli

open Decimal CString Segments

/-- The segments that a path leads through. -/
def remaining (vpath : List UInt8) : List (List UInt8) :=
  resolve [dot] [dot, dot] (segments slash (phpRawUrlDecode vpath))

/-! ## One round of the loop -/

/-- The part of the buffer in front of `p`: a slash or nothing, and segments with a slash each. -/
def front (root : Bool) (segs : List (List UInt8)) : List UInt8 :=
  (if root then [slash] else []) ++ segs.flatMap (· ++ [slash])

/-- A segment that stays. -/
structure Stays (seg : List UInt8) : Prop where
  nonempty : seg ≠ []
  plain : slash ∉ seg

theorem front_concat (root : Bool) (segs : List (List UInt8)) (seg : List UInt8) :
    front root (segs ++ [seg]) = front root segs ++ (seg ++ [slash]) := by
  simp [front]

theorem stepBack_over {buf : List UInt8} {m : Nat} (count : Nat)
    (plain : ∀ i, m ≤ i → i < m + count → buf[i]? ≠ some slash) :
    stepBack buf (m + count) = stepBack buf m := by
  induction count with
  | zero => rfl
  | succ count induction =>
      rw [← Nat.add_assoc, stepBack, if_neg (plain _ (Nat.le_add_right _ _) (by omega))]
      exact induction fun i lower upper => plain i lower (by omega)

/-- The segment in front of `p` is skipped. -/
theorem stepBack_segment {start seg rest : List UInt8} (stays : Stays seg)
    (boundary : start = [] ∨ start.getLast? = some slash) :
    stepBack (start ++ (seg ++ slash :: rest)) (start.length + seg.length) = start.length := by
  have at_segment (i : Nat) (lower : start.length ≤ i) (upper : i < start.length + seg.length) :
      (start ++ (seg ++ slash :: rest))[i]? = seg[i - start.length]? := by
    rw [List.getElem?_append_right lower, List.getElem?_append_left (by omega)]
  rw [stepBack_over seg.length]
  · cases boundary with
    | inl empty =>
        subst empty
        rw [List.length_nil, stepBack, if_neg]
        intro isSlash
        have first := at_segment 0 (Nat.le_refl 0)
          (by have := List.length_pos_iff.mpr stays.nonempty; simpa using this)
        rw [List.head?_eq_getElem?, first] at isSlash
        exact stays.plain (List.mem_of_getElem? isSlash)
    | inr last =>
        rcases List.getLast?_eq_some_iff.mp last with ⟨before, rfl⟩
        simp [stepBack]
  · intro i lower upper isSlash
    rw [at_segment i lower upper] at isSlash
    exact stays.plain (List.mem_of_getElem? isSlash)

theorem front_boundary (root : Bool) (segs : List (List UInt8)) :
    front root segs = [] ∨ (front root segs).getLast? = some slash := by
  induction segs using List.reverseRecOn with
  | nil =>
      cases root with
      | false => exact Or.inl rfl
      | true => exact Or.inr rfl
  | append_singleton segs seg _ =>
      right
      rw [front_concat, ← List.append_assoc]
      exact List.getLast?_concat

/-- Where `..` moves `p` to. -/
theorem stepBack_front {root : Bool} {segs : List (List UInt8)} {rest : List UInt8}
    (stay : ∀ seg ∈ segs, Stays seg) :
    (if 0 < (front root segs).length then
      stepBack (front root segs ++ rest) ((front root segs).length - 1)
    else
      (front root segs).length) = (front root segs.dropLast).length := by
  induction segs using List.reverseRecOn with
  | nil => cases root <;> rfl
  | append_singleton segs seg _ =>
      have stays := stay seg (by simp)
      have index : (front root (segs ++ [seg])).length - 1 =
          (front root segs).length + seg.length := by
        rw [front_concat]
        simp only [List.length_append, List.length_singleton]
        omega
      have positive : 0 < (front root (segs ++ [seg])).length := by
        rw [front_concat, List.length_append, List.length_append, List.length_singleton]
        omega
      have text : front root (segs ++ [seg]) ++ rest =
          front root segs ++ (seg ++ slash :: rest) := by
        rw [front_concat]
        simp
      rw [if_pos positive, index, text, List.dropLast_concat]
      exact stepBack_segment stays (front_boundary root segs)

theorem take_front_dropLast (root : Bool) (segs : List (List UInt8)) (rest : List UInt8) :
    (front root segs ++ rest).take (front root segs.dropLast).length =
      front root segs.dropLast := by
  induction segs using List.reverseRecOn with
  | nil => exact List.take_left
  | append_singleton segs seg _ =>
      rw [List.dropLast_concat, front_concat, List.append_assoc, List.take_left]

theorem drop_takeWhile {test : UInt8 → Bool} (text : List UInt8) :
    text.drop (text.takeWhile test).length = text.dropWhile test := by
  induction text with
  | nil => rfl
  | cons c rest induction =>
      by_cases pass : test c = true
      · simpa [pass] using induction
      · simp [pass]

/-- The first segment of the text behind `p`, and what follows it. -/
theorem firstSegment_cases (rest : List UInt8) (nonempty : rest ≠ [])
    (noSlash : rest.head? ≠ some slash) :
    ∃ seg tail, rest = seg ++ tail ∧ Stays seg ∧ rest.takeWhile (· != slash) = seg ∧
      (tail = [] ∨ ∃ more, tail = slash :: more) := by
  refine ⟨rest.takeWhile (· != slash), rest.dropWhile (· != slash),
    List.takeWhile_append_dropWhile.symm, ⟨?_, ?_⟩, rfl, ?_⟩
  · cases rest with
    | nil => exact absurd rfl nonempty
    | cons c rest =>
        have different : c ≠ slash := fun equal => noSlash (by rw [equal]; rfl)
        simp [different]
  · intro member
    exact absurd (List.mem_takeWhile_imp member) (by simp)
  · cases tail : rest.dropWhile (· != slash) with
    | nil => exact Or.inl rfl
    | cons c more =>
        right
        have stopped := List.head?_dropWhile_not (· != slash) rest
        rw [tail] at stopped
        simp only [List.head?_cons, bne_eq_false_iff_eq] at stopped
        exact ⟨more, by rw [stopped]⟩

/-- What a round makes of a buffer, by the segment behind `p`. -/
theorem normalizeStep_front {root : Bool} {segs : List (List UInt8)} {seg tail : List UInt8}
    (stay : ∀ seg ∈ segs, Stays seg) (stays : Stays seg)
    (boundary : tail = [] ∨ ∃ more, tail = slash :: more) :
    normalizeStep (front root segs ++ (seg ++ tail)) (front root segs).length =
      if seg = [dot, dot] then
        (front root segs.dropLast ++ tail.dropWhile (· == slash),
          (front root segs.dropLast).length)
      else if seg = [dot] then
        (front root segs ++ tail.dropWhile (· == slash), (front root segs).length)
      else if tail = [] then
        (front root segs ++ seg, (front root segs).length + seg.length)
      else
        (front root (segs ++ [seg]) ++ tail.dropWhile (· == slash),
          (front root (segs ++ [seg])).length) := by
  have first : (seg ++ tail).takeWhile (· != slash) = seg := by
    have pass : ∀ c ∈ seg, (c != slash) = true := by
      intro c member
      rw [bne_iff_ne]
      rintro rfl
      exact stays.plain member
    rw [List.takeWhile_append_of_pos pass]
    cases boundary with
    | inl empty => simp [empty]
    | inr more =>
        rcases more with ⟨more, rfl⟩
        simp
  have segmentEnds : segmentEnd (front root segs ++ (seg ++ tail)) (front root segs).length =
      (front root segs).length + seg.length := by
    rw [segmentEnd, List.drop_left, first]
  have isSegment : ((front root segs ++ (seg ++ tail)).take
      ((front root segs).length + seg.length)).drop (front root segs).length = seg := by
    rw [List.take_length_add_append, List.drop_left, List.take_left]
  have behind : (front root segs ++ (seg ++ tail)).drop ((front root segs).length + seg.length) =
      tail := by
    rw [← List.append_assoc, ← List.length_append, List.drop_left]
  have skipped : (front root segs ++ (seg ++ tail)).drop
      (skipSlashes (front root segs ++ (seg ++ tail)) ((front root segs).length + seg.length)) =
      tail.dropWhile (· == slash) := by
    rw [skipSlashes, ← List.drop_drop, behind, drop_takeWhile]
  simp only [normalizeStep, segmentEnds, isSegment, stepBack_front stay]
  split_ifs with isUp isHere inside empty empty
  · rw [closeGap, skipped, take_front_dropLast]
  · rw [closeGap, skipped, List.take_left]
  · rw [empty] at inside
    simp at inside
  · rw [closeGap, skipped, front_concat]
    cases boundary with
    | inl nil => exact absurd nil empty
    | inr more =>
        rcases more with ⟨more, rfl⟩
        have text : front root segs ++ (seg ++ slash :: more) =
            (front root segs ++ (seg ++ [slash])) ++ more := by simp
        have length : (front root segs).length + seg.length + 1 =
            (front root segs ++ (seg ++ [slash])).length := by simp [Nat.add_assoc]
        rw [text, length, List.take_left]
  · rw [empty, List.append_nil]
  · cases boundary with
    | inl nil => exact absurd nil empty
    | inr more =>
        rcases more with ⟨more, rfl⟩
        simp at inside

/-! ## The loop -/

theorem head?_dropWhile_slash (text : List UInt8) :
    (text.dropWhile (· == slash)).head? ≠ some slash := by
  intro isSlash
  have stopped := List.head?_dropWhile_not (· == slash) text
  rw [isSlash] at stopped
  simp at stopped

theorem length_dropWhile_le {test : UInt8 → Bool} (text : List UInt8) :
    (text.dropWhile test).length ≤ text.length := (List.dropWhile_sublist test).length_le

theorem segments_tail {seg tail : List UInt8} (stays : Stays seg)
    (boundary : tail = [] ∨ ∃ more, tail = slash :: more) :
    segments slash (seg ++ tail) = seg :: segments slash (tail.dropWhile (· == slash)) := by
  cases boundary with
  | inl empty =>
      rw [empty, List.append_nil, segments_single stays.nonempty stays.plain]
      rfl
  | inr more =>
      rcases more with ⟨more, rfl⟩
      rw [segments_front stays.nonempty stays.plain, segments_dropWhile, segments_separator]

theorem normalizeLoop_end (fuel : Nat) (buf : List UInt8) :
    normalizeLoop fuel buf buf.length = buf := by
  cases fuel with
  | zero => rfl
  | succ fuel => rw [normalizeLoop, if_neg (Nat.lt_irrefl _)]

theorem behind_shorter {fuel : Nat} {seg tail : List UInt8} (stays : Stays seg)
    (enough : (seg ++ tail).length ≤ fuel + 1) : (tail.dropWhile (· == slash)).length ≤ fuel := by
  have := @length_dropWhile_le (· == slash) tail
  have := List.length_pos_iff.mpr stays.nonempty
  rw [List.length_append] at enough
  omega

theorem front_inside (root : Bool) (segs : List (List UInt8)) {seg : List UInt8}
    (stays : Stays seg) (tail : List UInt8) :
    (front root segs).length < (front root segs ++ (seg ++ tail)).length := by
  have := List.length_pos_iff.mpr stays.nonempty
  simp only [List.length_append]
  omega

theorem stay_concat {segs : List (List UInt8)} {seg : List UInt8}
    (stay : ∀ seg ∈ segs, Stays seg) (stays : Stays seg) :
    ∀ part ∈ segs ++ [seg], Stays part := by
  intro part member
  cases List.mem_append.mp member with
  | inl member => exact stay part member
  | inr last =>
      rw [List.mem_singleton.mp last]
      exact stays

theorem closeGap_root {buf : List UInt8} (rooted : buf.head? = some slash) :
    closeGap buf 1 (skipSlashes buf 0) = front true [] ++ buf.dropWhile (· == slash) := by
  rw [closeGap, skipSlashes, Nat.zero_add, List.drop_zero, drop_takeWhile]
  cases buf with
  | nil => simp at rooted
  | cons c rest =>
      simp only [List.head?_cons, Option.some.injEq] at rooted
      rw [rooted]
      rfl

theorem front_eq_join (root : Bool) (segs : List (List UInt8)) :
    front root segs = join slash root true segs := (join_trailing root segs).symm

/-- A path that leads to a directory: nothing, `.` or `..` is behind its last slash. -/
def leadsToDirectory (text : List UInt8) : Bool :=
  ending slash text = [] || ending slash text = [dot] || ending slash text = [dot, dot]

theorem leadsToDirectory_tail {seg tail : List UInt8}
    (boundary : tail = [] ∧ leadsToDirectory seg = true ∨ ∃ more, tail = slash :: more) :
    leadsToDirectory (tail.dropWhile (· == slash)) = leadsToDirectory (seg ++ tail) := by
  rcases boundary with ⟨rfl, directory⟩ | ⟨more, rfl⟩
  · rw [List.append_nil, directory]
    rfl
  · rw [leadsToDirectory, leadsToDirectory, ending_dropWhile, ending_append,
      ← List.nil_append (slash :: more), ending_append]

/-- The loop leaves the text of those segments. -/
theorem normalizeLoop_eq_join {root : Bool} (fuel : Nat) {segs : List (List UInt8)}
    {rest : List UInt8} (stay : ∀ seg ∈ segs, Stays seg) (noSlash : rest.head? ≠ some slash)
    (enough : rest.length ≤ fuel) :
    normalizeLoop fuel (front root segs ++ rest) (front root segs).length =
      join slash root (leadsToDirectory rest)
        ((segments slash rest).foldl (walk [dot] [dot, dot]) segs) := by
  induction fuel generalizing segs rest with
  | zero =>
      rw [List.length_eq_zero_iff.mp (Nat.le_zero.mp enough), normalizeLoop, List.append_nil,
        front_eq_join]
      rfl
  | succ fuel induction =>
      by_cases nonempty : rest = []
      · rw [nonempty, List.append_nil, normalizeLoop_end, front_eq_join]
        rfl
      · rcases firstSegment_cases rest nonempty noSlash with
          ⟨seg, tail, rfl, stays, _, boundary⟩
        have shorter := behind_shorter stays enough
        have inside := front_inside root segs stays tail
        have stayUp := fun seg member => stay seg ((List.dropLast_sublist segs).subset member)
        have stopped := head?_dropWhile_slash tail
        rw [normalizeLoop, if_pos inside, normalizeStep_front stay stays boundary,
          segments_tail stays boundary, List.foldl_cons, walk]
        split_ifs with isUp isHere empty
        · have directory : leadsToDirectory seg = true := by
            rw [isUp]
            rfl
          rw [← leadsToDirectory_tail (boundary.imp_left fun empty => ⟨empty, directory⟩)]
          exact induction stayUp stopped shorter
        · have directory : leadsToDirectory seg = true := by
            rw [isHere]
            rfl
          rw [← leadsToDirectory_tail (boundary.imp_left fun empty => ⟨empty, directory⟩)]
          exact induction stay stopped shorter
        · have length : (front root segs).length + seg.length = (front root segs ++ seg).length :=
            (List.length_append).symm
          have file : leadsToDirectory seg = false := by
            rw [leadsToDirectory, ending_single stays.plain]
            simp [stays.nonempty, isUp, isHere]
          rw [empty, length, List.append_nil, file]
          simp only
          rw [normalizeLoop_end, List.dropWhile_nil, segments_nil, List.foldl_nil, join_concat]
          rfl
        · rw [← leadsToDirectory_tail (boundary.imp_left fun nil => absurd nil empty)]
          exact induction (stay_concat stay stays) stopped shorter

/-- The text of the result, by the segments that are left. -/
theorem normalizeVpath_eq_join (vpath : List UInt8) :
    normalizeVpath vpath =
      join slash ((phpRawUrlDecode vpath).head? = some slash)
        (leadsToDirectory (phpRawUrlDecode vpath)) (remaining vpath) := by
  rw [normalizeVpath, remaining, resolve]
  generalize phpRawUrlDecode vpath = buf
  split_ifs with rooted
  · have loop := @normalizeLoop_eq_join true buf.length [] (buf.dropWhile (· == slash))
      (by simp) (head?_dropWhile_slash buf) (length_dropWhile_le buf)
    rw [closeGap_root rooted, decide_eq_true rooted]
    rw [segments_dropWhile] at loop
    rw [leadsToDirectory, ending_dropWhile] at loop
    exact loop
  · rw [decide_eq_false rooted]
    exact @normalizeLoop_eq_join false buf.length [] buf (by simp) rooted (Nat.le_refl _)

theorem whole_remaining (vpath : List UInt8) :
    ∀ part ∈ remaining vpath, part ≠ [] ∧ slash ∉ part :=
  fun _ member => mem_segments (mem_resolve member)

/-- `normalize_vpath` leaves the segments that a path leads through. -/
theorem segments_normalizeVpath (vpath : List UInt8) :
    segments slash (normalizeVpath vpath) = remaining vpath := by
  rw [normalizeVpath_eq_join]
  exact segments_join (whole_remaining vpath)

/-- `normalize_vpath` returns the segments that are left of the decoded path, with one slash
between two of them, a slash in front if there was one, and a slash behind the last if the path
led to a directory. -/
theorem normalizeVpath_resolves (vpath : List UInt8) :
    normalizeVpath vpath =
        join slash ((phpRawUrlDecode vpath).head? = some slash)
          (leadsToDirectory (phpRawUrlDecode vpath)) (remaining vpath) ∧
      segments slash (normalizeVpath vpath) = remaining vpath ∧
      ((normalizeVpath vpath).head? = some slash ↔
        (phpRawUrlDecode vpath).head? = some slash) := by
  refine ⟨normalizeVpath_eq_join vpath, segments_normalizeVpath vpath, ?_⟩
  rw [normalizeVpath_eq_join, head?_join (whole_remaining vpath), decide_eq_true_iff]

/-! ## C strings -/

/-- The segments of a C string, by those of the bytes. -/
def cutSegments : List (List UInt8) → List (List UInt8)
  | [] => []
  | seg :: segs =>
      if 0 ∈ seg then
        if cString seg = [] then [] else [cString seg]
      else
        seg :: cutSegments segs

theorem cString_append {start rest : List UInt8} (noNul : 0 ∉ start) :
    cString (start ++ rest) = start ++ cString rest := by
  apply List.takeWhile_append_of_pos
  intro c member
  rw [bne_iff_ne]
  rintro rfl
  exact noNul member

theorem cString_append_of_mem {start rest : List UInt8} (nul : 0 ∈ start) :
    cString (start ++ rest) = cString start := by
  induction start with
  | nil => simp at nul
  | cons c start induction =>
      by_cases isNul : c = 0
      · simp [cString, isNul]
      · have later := (List.mem_cons.mp nul).resolve_left (Ne.symm isNul)
        have shorter := induction later
        rw [cString] at shorter ⊢
        rw [List.cons_append, List.takeWhile_cons, shorter, cString, cString, List.takeWhile_cons]

theorem cString_subset {bytes : List UInt8} : ∀ c ∈ cString bytes, c ∈ bytes := fun _ member =>
  (List.takeWhile_sublist _).subset member

theorem segments_cString (text : List UInt8) :
    segments slash (cString text) = cutSegments (segments slash text) := by
  -- induction on the length: the first segment is taken away as a whole
  induction bound : text.length using Nat.strong_induction_on generalizing text with
  | _ length induction =>
      cases text with
      | nil => rfl
      | cons c rest =>
          by_cases isSlash : c = slash
          · have cut : cString (c :: rest) = slash :: cString rest := by
              rw [isSlash]
              exact List.takeWhile_cons_of_pos (by decide)
            rw [cut, isSlash, segments_separator, segments_separator]
            exact induction rest.length (by rw [← bound]; simp) rest rfl
          · rcases firstSegment_cases (c :: rest) (by simp) (by simpa using isSlash) with
              ⟨seg, tail, split, stays, _, boundary⟩
            rw [split, segments_tail stays boundary, cutSegments]
            by_cases nul : 0 ∈ seg
            · rw [if_pos nul, cString_append_of_mem nul]
              split_ifs with empty
              · rw [empty]
                rfl
              · exact segments_single empty fun member => stays.plain (cString_subset _ member)
            · rw [if_neg nul, cString_append nul]
              cases boundary with
              | inl empty =>
                  have single := segments_single stays.nonempty stays.plain
                  simpa [empty, cString, cutSegments] using single
              | inr more =>
                  rcases more with ⟨more, rfl⟩
                  have cut : cString (slash :: more) = slash :: cString more :=
                    List.takeWhile_cons_of_pos (by decide)
                  have shorter : more.length < length := by
                    rw [← bound, split]
                    simp only [List.length_append, List.length_cons]
                    omega
                  rw [cut, segments_front stays.nonempty stays.plain,
                    induction more.length shorter more rfl, segments_dropWhile,
                    segments_separator]

/-- The NUL that ends the C string is in a segment that starts with one dot or two. -/
def CutAtDots (segs : List (List UInt8)) : Prop :=
  ∃ before seg after, segs = before ++ seg :: after ∧ (∀ part ∈ before, 0 ∉ part) ∧ 0 ∈ seg ∧
    (cString seg = [dot] ∨ cString seg = [dot, dot])

/-- No segment of the text is a dot segment. -/
def DotFree (text : List UInt8) : Prop :=
  [dot] ∉ segments slash text ∧ [dot, dot] ∉ segments slash text

theorem mem_cutSegments {part : List UInt8} {segs : List (List UInt8)}
    (member : part ∈ cutSegments segs) :
    part ∈ segs ∨ ∃ before seg after, segs = before ++ seg :: after ∧
      (∀ part ∈ before, 0 ∉ part) ∧ 0 ∈ seg ∧ cString seg = part := by
  induction segs with
  | nil => cases member
  | cons seg segs induction =>
      rw [cutSegments] at member
      split_ifs at member with nul empty
      · cases member
      · rw [List.mem_singleton] at member
        exact Or.inr ⟨[], seg, segs, rfl, by simp, nul, member.symm⟩
      · cases List.mem_cons.mp member with
        | inl first => exact Or.inl (List.mem_cons.mpr (Or.inl first))
        | inr later =>
            cases induction later with
            | inl member => exact Or.inl (List.mem_cons_of_mem _ member)
            | inr cut =>
                rcases cut with ⟨before, cutSeg, after, rfl, noNul, isNul, equal⟩
                refine Or.inr ⟨seg :: before, cutSeg, after, rfl, ?_, isNul, equal⟩
                intro part member
                cases List.mem_cons.mp member with
                | inl first =>
                    rw [first]
                    exact nul
                | inr member => exact noNul part member

theorem cutSegments_append {before after : List (List UInt8)} {seg : List UInt8}
    (noNul : ∀ part ∈ before, 0 ∉ part) (nul : 0 ∈ seg) (nonempty : cString seg ≠ []) :
    cString seg ∈ cutSegments (before ++ seg :: after) := by
  induction before with
  | nil => simp [cutSegments, nul, nonempty]
  | cons part before induction =>
      rw [List.cons_append, cutSegments, if_neg (noNul part List.mem_cons_self)]
      exact List.mem_cons_of_mem _
        (induction fun part member => noNul part (List.mem_cons_of_mem _ member))

theorem cutSegments_subset (front back : List (List UInt8)) :
    ∀ part ∈ cutSegments front, part ∈ cutSegments (front ++ back) := by
  intro part member
  induction front with
  | nil => cases member
  | cons seg front induction =>
      rw [List.cons_append]
      rw [cutSegments] at member ⊢
      split_ifs at member ⊢ with nul empty
      · exact member
      · exact member
      · cases List.mem_cons.mp member with
        | inl first => exact List.mem_cons.mpr (Or.inl first)
        | inr later => exact List.mem_cons_of_mem _ (induction later)

/-- A C string has dot segments if and only if a NUL has left them. -/
theorem dotFree_cString_iff {text : List UInt8} (free : DotFree text) :
    DotFree (cString text) ↔ ¬ CutAtDots (segments slash text) := by
  rw [DotFree, segments_cString]
  constructor
  · rintro dotFree ⟨before, seg, after, split, noNul, nul, dots⟩
    rw [split] at dotFree
    have member := @cutSegments_append before after seg noNul nul
    cases dots with
    | inl one =>
        rw [one] at member
        exact dotFree.1 (member (by simp))
    | inr two =>
        rw [two] at member
        exact dotFree.2 (member (by simp))
  · intro notCut
    constructor
    · intro member
      cases mem_cutSegments member with
      | inl member => exact free.1 member
      | inr cut =>
          rcases cut with ⟨before, seg, after, split, noNul, nul, equal⟩
          exact notCut ⟨before, seg, after, split, noNul, nul, Or.inl equal⟩
    · intro member
      cases mem_cutSegments member with
      | inl member => exact free.2 member
      | inr cut =>
          rcases cut with ⟨before, seg, after, split, noNul, nul, equal⟩
          exact notCut ⟨before, seg, after, split, noNul, nul, Or.inr equal⟩

/-! ## The paths that `stat` gets -/

/-- An end of the path that the loop tries. -/
def IsEnd (buf : List UInt8) (q : Nat) : Prop :=
  q = 0 ∨ q = buf.length ∨ buf[q]? = some slash

/-- The path of a call: the buffer up to an end, or a directory and an index file. -/
inductive Tried (buf : List UInt8) : List UInt8 → Prop
  | path {q : Nat} (isEnd : IsEnd buf q) : Tried buf (cString (buf.take q))
  | index {q : Nat} {file : List UInt8} (positive : 0 < q) (isEnd : IsEnd buf q)
      (isIndex : file ∈ indexFiles) : Tried buf (cString (indexDir buf q ++ file))

section Calls

variable {stat : List UInt8 → Option Mode}

theorem findIndex_calls {dir path : List UInt8} {files : List (List UInt8)}
    (called : path ∈ (findIndex stat dir files).1) :
    ∃ file ∈ files, path = cString (dir ++ file) := by
  induction files with
  | nil => cases called
  | cons file files induction =>
      rw [findIndex] at called
      split_ifs at called
      · exact ⟨file, List.mem_cons_self, List.mem_singleton.mp called⟩
      · cases List.mem_cons.mp called with
        | inl first => exact ⟨file, List.mem_cons_self, first⟩
        | inr later =>
            rcases induction later with ⟨other, member, equal⟩
            exact ⟨other, List.mem_cons_of_mem _ member, equal⟩

theorem isEnd_slashBefore (buf : List UInt8) (q : Nat) : IsEnd buf (slashBefore buf q) := by
  induction q with
  | zero => exact Or.inl rfl
  | succ q induction =>
      rw [slashBefore]
      split_ifs with found
      · cases found with
        | inl zero => exact Or.inl zero
        | inr isSlash => exact Or.inr (Or.inr isSlash)
      · exact induction

theorem translateLoop_calls {buf path : List UInt8} {rootLength : Nat} {isStaticFile : Bool}
    {fuel q : Nat} {prevPath : Option (List UInt8)} (isEnd : IsEnd buf q)
    (called : path ∈ (translateLoop stat buf rootLength isStaticFile fuel q prevPath).1) :
    Tried buf path := by
  induction fuel generalizing q prevPath with
  | zero => cases called
  | succ fuel induction =>
      rw [translateLoop] at called
      by_cases zero : q = 0
      · rw [if_pos zero] at called
        cases called
      · rw [if_neg zero] at called
        simp only at called
        split at called
        · have member : path ∈ cString (buf.take q) ::
              (findIndex stat (indexDir buf q) indexFiles).1 := by
            split at called <;> exact called
          cases List.mem_cons.mp member with
          | inl first =>
              rw [first]
              exact .path isEnd
          | inr later =>
              rcases findIndex_calls later with ⟨file, isIndex, equal⟩
              rw [equal]
              exact .index (Nat.pos_of_ne_zero zero) isEnd isIndex
        · rw [List.mem_singleton] at called
          rw [called]
          exact .path isEnd
        · cases List.mem_cons.mp called with
          | inl first =>
              rw [first]
              exact .path isEnd
          | inr later => exact induction (isEnd_slashBefore buf q) later

theorem translateVpath_calls {root vpath path : List UInt8}
    (called : path ∈ (translateVpath stat root vpath).1) :
    Tried (translateBuffer root vpath) path :=
  translateLoop_calls (Or.inr (Or.inl rfl)) called

/-- The first call gets the whole buffer. -/
theorem translateVpath_first {root vpath : List UInt8} (nonempty : vpath ≠ []) :
    cString (translateBuffer root vpath) ∈ (translateVpath stat root vpath).1 := by
  have positive : (translateBuffer root vpath).length ≠ 0 := by
    simp [translateBuffer, nonempty]
  rw [translateVpath, translateLoop, if_neg positive, List.take_length]
  simp only
  split
  · split <;> exact List.mem_cons_self
  · exact List.mem_singleton_self _
  · exact List.mem_cons_self

end Calls

/-- What follows the document root in the buffer. -/
def behindRoot (vpath : List UInt8) : List UInt8 :=
  (if vpath ≠ [] ∧ vpath.head? ≠ some slash then [slash] else []) ++ vpath

theorem translateBuffer_eq (root vpath : List UInt8) :
    translateBuffer root vpath = root ++ behindRoot vpath := List.append_assoc _ _ _

theorem segments_behindRoot (vpath : List UInt8) :
    segments slash (behindRoot vpath) = segments slash vpath := by
  rw [behindRoot]
  split_ifs
  · exact segments_separator vpath
  · rfl

theorem dotFree_suffix {file suffix : List UInt8} (isIndex : file ∈ indexFiles)
    (isSuffix : suffix <:+ slash :: file) : DotFree suffix := by
  have suffixes : ∀ file ∈ indexFiles, ∀ suffix ∈ (slash :: file).tails,
      [dot] ∉ segments slash suffix ∧ [dot, dot] ∉ segments slash suffix := by decide
  exact suffixes file isIndex suffix ((List.mem_tails _ _).mpr isSuffix)

theorem dotFree_append {front file : List UInt8} (free : DotFree front)
    (isIndex : file ∈ indexFiles) : DotFree (front ++ slash :: file) := by
  have index := dotFree_suffix isIndex (List.suffix_cons slash file)
  rw [DotFree, segments_append, List.mem_append, List.mem_append, not_or, not_or]
  exact ⟨⟨free.1, index.1⟩, free.2, index.2⟩

theorem nul_notMem_index {file : List UInt8} (isIndex : file ∈ indexFiles) :
    0 ∉ slash :: file := by
  have known : ∀ file ∈ indexFiles, (0 : UInt8) ∉ slash :: file := by decide
  exact known file isIndex

section Behind

variable {root v : List UInt8} {q k : Nat}

theorem take_root (isBehind : q = root.length + k) : (root ++ v).take q = root ++ v.take k := by
  rw [isBehind, List.take_length_add_append]

/-- The segments in front of an end are the first ones. -/
theorem segments_take (isBehind : q = root.length + k) (isEnd : IsEnd (root ++ v) q) :
    ∃ more, segments slash v = segments slash (v.take k) ++ more := by
  rcases isEnd with zero | whole | isSlash
  · have none : k = 0 := by omega
    exact ⟨segments slash v, by rw [none, List.take_zero]; rfl⟩
  · have all : k = v.length := by
      rw [List.length_append] at whole
      omega
    exact ⟨[], by rw [all, List.take_length, List.append_nil]⟩
  · rw [isBehind, List.getElem?_append_right (Nat.le_add_right _ _), Nat.add_sub_cancel_left]
      at isSlash
    rcases List.getElem?_eq_some_iff.mp isSlash with ⟨inside, equal⟩
    have split : v = v.take k ++ slash :: v.drop (k + 1) := by
      rw [← equal, ← List.drop_eq_getElem_cons inside, List.take_append_drop]
    exact ⟨segments slash (v.drop (k + 1)), by conv_lhs => rw [split, segments_append]⟩

theorem dotFree_take (isBehind : q = root.length + k) (isEnd : IsEnd (root ++ v) q)
    (free : DotFree v) : DotFree (v.take k) := by
  rcases segments_take isBehind isEnd with ⟨more, split⟩
  rw [DotFree, split, List.mem_append, List.mem_append, not_or, not_or] at free
  exact ⟨free.1.1, free.2.1⟩

theorem dotFree_cString_take (isBehind : q = root.length + k) (isEnd : IsEnd (root ++ v) q)
    (free : DotFree (cString v)) : DotFree (cString (v.take k)) := by
  rcases segments_take isBehind isEnd with ⟨more, split⟩
  rw [DotFree, segments_cString] at free ⊢
  rw [split] at free
  exact ⟨fun member => free.1 (cutSegments_subset _ more _ member),
    fun member => free.2 (cutSegments_subset _ more _ member)⟩

theorem path_dotFree {rest : List UInt8} (noNul : 0 ∉ root) (free : DotFree (cString v))
    (isEnd : IsEnd (root ++ v) q) (equal : cString ((root ++ v).take q) = root ++ rest) :
    DotFree rest := by
  by_cases short : q ≤ root.length
  · rw [List.take_append_of_le_length short,
      cString_of_notMem fun member => noNul (List.mem_of_mem_take member)] at equal
    have empty : rest = [] := by
      have length := congrArg List.length equal
      rw [List.length_take, List.length_append] at length
      exact List.length_eq_zero_iff.mp (by omega)
    rw [empty]
    exact ⟨by simp, by simp⟩
  · have isBehind : q = root.length + (q - root.length) := by omega
    rw [take_root isBehind, cString_append noNul] at equal
    rw [← List.append_cancel_left equal]
    exact dotFree_cString_take isBehind isEnd free

/-- A directory and an index file, when there is no NUL in the directory. -/
theorem index_dotFree {file rest : List UInt8} (positive : 0 < q) (free : DotFree v)
    (isEnd : IsEnd (root ++ v) q) (isIndex : file ∈ indexFiles)
    (equal : indexDir (root ++ v) q ++ file = root ++ rest) : DotFree rest := by
  by_cases short : q < root.length
  · -- what follows the root is a part of the slash and the file
    rw [indexDir, List.take_append_of_le_length (Nat.le_of_lt short)] at equal
    apply dotFree_suffix isIndex
    split_ifs at equal
    · have tail := congrArg (List.drop root.length) equal
      rw [List.drop_left, List.drop_append,
        List.drop_eq_nil_of_le (List.length_take_le' _ _)] at tail
      rw [← tail]
      exact (List.drop_suffix _ _).trans (List.suffix_cons slash file)
    · have tail := congrArg (List.drop root.length) equal
      rw [List.drop_left, List.append_assoc, List.drop_append,
        List.drop_eq_nil_of_le (List.length_take_le' _ _)] at tail
      rw [← tail]
      exact List.drop_suffix _ _
  · have isBehind : q = root.length + (q - root.length) := by omega
    have freeTake := dotFree_take isBehind isEnd free
    generalize q - root.length = k at isBehind freeTake
    rw [indexDir, take_root isBehind] at equal
    split_ifs at equal with closed
    · rw [List.append_assoc] at equal
      rw [← List.append_cancel_left equal]
      cases k with
      | zero => exact dotFree_suffix isIndex (List.suffix_cons slash file)
      | succ k =>
          have index : q - 1 = root.length + k := by omega
          rw [index, List.getElem?_append_right (Nat.le_add_right _ _),
            Nat.add_sub_cancel_left] at closed
          have split : v.take (k + 1) = v.take k ++ [slash] := by
            rw [List.take_add_one, closed]
            rfl
          rw [split] at freeTake ⊢
          rw [List.append_assoc]
          apply dotFree_append _ isIndex
          rw [DotFree, segments_append] at freeTake
          simpa [DotFree] using freeTake
    · rw [List.append_assoc, List.append_assoc] at equal
      rw [← List.append_cancel_left equal]
      exact dotFree_append freeTake isIndex

/-- All paths are free of dot segments if the first one is. -/
theorem tried_dotFree {path rest : List UInt8} (noNul : 0 ∉ root) (free : DotFree v)
    (freeCString : DotFree (cString v)) (tried : Tried (root ++ v) path)
    (equal : path = root ++ rest) : DotFree rest := by
  cases tried with
  | path isEnd => exact path_dotFree noNul freeCString isEnd equal
  | @index q file positive isEnd isIndex =>
      by_cases nul : 0 ∈ (root ++ v).take q
      · apply path_dotFree noNul freeCString isEnd
        rw [← equal, indexDir]
        split_ifs
        · rw [cString_append_of_mem nul]
        · rw [List.append_assoc, cString_append_of_mem nul]
      · apply index_dotFree positive free isEnd isIndex
        have noNulFile := nul_notMem_index isIndex
        rw [← equal, cString_of_notMem]
        rw [List.mem_cons, not_or] at noNulFile
        rw [indexDir]
        split_ifs
        · rw [List.mem_append, not_or]
          exact ⟨nul, noNulFile.2⟩
        · rw [List.mem_append, List.mem_append, List.mem_singleton, not_or, not_or]
          exact ⟨⟨nul, noNulFile.1⟩, noNulFile.2⟩

end Behind

theorem dotFree_normalizeVpath (vpath : List UInt8) :
    DotFree (behindRoot (normalizeVpath vpath)) := by
  have plain := @resolve_plain _ _ [dot] [dot, dot] (segments slash (phpRawUrlDecode vpath))
  rw [DotFree, segments_behindRoot, segments_normalizeVpath]
  exact ⟨fun member => (plain _ member).1 rfl, fun member => (plain _ member).2 rfl⟩

/-- The paths that `stat` gets have no dot segments behind the document root, unless the first
NUL of the remaining segments is behind one dot or two. -/
theorem stat_dotFree_iff {root : List UInt8} (vpath : List UInt8) (noNul : 0 ∉ root) :
    (∀ stat path rest, path ∈ (translateVpath stat root (normalizeVpath vpath)).1 →
      path = root ++ rest → DotFree rest) ↔ ¬ CutAtDots (remaining vpath) := by
  have free := dotFree_normalizeVpath vpath
  have cut := dotFree_cString_iff free
  rw [segments_behindRoot, segments_normalizeVpath] at cut
  rw [← cut]
  constructor
  · intro all
    by_cases empty : normalizeVpath vpath = []
    · rw [empty]
      exact ⟨by decide, by decide⟩
    · apply all (fun _ => none) _ _ (translateVpath_first empty)
      rw [translateBuffer_eq, cString_append noNul]
  · intro freeCString stat path rest called equal
    have tried := translateVpath_calls called
    rw [translateBuffer_eq] at tried
    exact tried_dotFree noNul free freeCString tried equal

/-- `/a/../b/%2e/c%00d` below `/r` -/
theorem stat_dotFree_parent :
    let vpath := "/a/../b/%2e/c%00d".toList.map byte
    remaining vpath = [[byte 'b'], [byte 'c', 0, byte 'd']] ∧
    ∀ stat path rest, path ∈ (translateVpath stat [slash, byte 'r'] (normalizeVpath vpath)).1 →
      path = [slash, byte 'r'] ++ rest → DotFree rest := by
  intro vpath
  have segs : remaining vpath = [[byte 'b'], [byte 'c', 0, byte 'd']] := by decide
  refine ⟨segs, (stat_dotFree_iff vpath (by decide)).mpr ?_⟩
  rintro ⟨before, seg, after, split, _, _, dots⟩
  rw [segs] at split
  have member : seg ∈ [[byte 'b'], [byte 'c', 0, byte 'd']] := by simp [split]
  have none : ∀ seg ∈ [[byte 'b'], [byte 'c', 0, byte 'd']],
      ¬(cString seg = [dot] ∨ cString seg = [dot, dot]) := by decide
  exact none seg member dots

/-- For `/..%00` below `/r`, `stat` gets `/r/..`. -/
theorem stat_parent :
    ¬ DotFree [slash, dot, dot] ∧
    ∀ stat, [slash, byte 'r'] ++ [slash, dot, dot] ∈ (translateVpath stat [slash, byte 'r']
      (normalizeVpath [slash, dot, dot, byte '%', byte '0', byte '0'])).1 := by
  refine ⟨fun free => free.2 (by decide), fun stat => ?_⟩
  exact @translateVpath_first stat [slash, byte 'r']
    (normalizeVpath [slash, dot, dot, byte '%', byte '0', byte '0']) (by decide)

end PhpRuntime.Cli
