import PhpRuntime.Url.Parse

/-! # Where the authority ends

A URL has its authority behind `//`, up to the first `/`, `?` or `#`. The code looks for a `/`
first, and for the other two only if there is none.
-/

namespace PhpRuntime.Url

open Decimal

/-! ## The authority of a URL -/

def isDelimiter (c : UInt8) : Bool := c == byte '/' || c == byte '?' || c == byte '#'

/-- The string behind `//`, which a scheme and its colon may precede; a string without them,
such as a host and a port, as a whole. -/
def behindSlashes (str : List UInt8) : List UInt8 :=
  if startsWithSlashes str then
    str.drop 2
  else
    match str.idxOf? (byte ':') with
    | some e =>
        if 0 < e && !(str.take e).any isDelimiter && startsWithSlashes (str.drop (e + 1)) then
          str.drop (e + 3)
        else
          str
    | none => str

/-- The authority, up to the first delimiter. -/
def authority (str : List UInt8) : List UInt8 :=
  (behindSlashes str).takeWhile fun c => !isDelimiter c

/-- The text that the code takes user, password, host and port from. -/
def takenAuthority (str : List UInt8) : Option (List UInt8) :=
  match parseStart str with
  | .authority _ s => some (s.take (authorityLength s))
  | _ => none

/-- None of the bytes that cannot be part of a host. -/
def Clean (host : List UInt8) : Prop :=
  byte '/' ∉ host ∧ byte '?' ∉ host ∧ byte '#' ∉ host ∧ byte '@' ∉ host

/-- A `?` or `#` of the string is in front of its first `/`. -/
def HidesDelimiter (str : List UInt8) : Prop :=
  ∃ before after, behindSlashes str = before ++ byte '/' :: after ∧ byte '/' ∉ before ∧
    (byte '?' ∈ before ∨ byte '#' ∈ before)

/-! ## Searching -/

section Searching

variable {c : UInt8} {text : List UInt8}

theorem idxOf?_split {p : Nat} (found : text.idxOf? c = some p) :
    text = text.take p ++ c :: text.drop (p + 1) ∧ c ∉ text.take p := by
  induction text generalizing p with
  | nil => simp at found
  | cons head tail induction =>
      rw [List.idxOf?_cons] at found
      by_cases equal : head = c
      · simp only [equal, beq_self_eq_true, if_true, Option.some.injEq] at found
        subst found equal
        simp
      · simp only [beq_eq_false_iff_ne.mpr equal, Bool.false_eq_true, if_false,
          Option.map_eq_some_iff] at found
        rcases found with ⟨index, found, rfl⟩
        have split := induction found
        constructor
        · rw [List.take_succ_cons, List.drop_succ_cons, List.cons_append, ← split.1]
        · rw [List.take_succ_cons, List.mem_cons, not_or]
          exact ⟨fun same => equal same.symm, split.2⟩

theorem idxOf?_append_cons {before after : List UInt8} (absent : c ∉ before) :
    (before ++ c :: after).idxOf? c = some before.length := by
  induction before with
  | nil => simp [List.idxOf?_cons]
  | cons head tail induction =>
      rw [List.mem_cons, not_or] at absent
      rw [List.cons_append, List.idxOf?_cons, induction absent.2]
      simp [beq_eq_false_iff_ne.mpr (Ne.symm absent.1)]

theorem memrchr_none (absent : memrchr c text = none) : c ∉ text := by
  simpa [memrchr, List.idxOf?_eq_none_iff] using absent

/-- There is no further occurrence behind the last one. -/
theorem memrchr_some {p : Nat} (found : memrchr c text = some p) : c ∉ text.drop (p + 1) := by
  rw [memrchr, Option.map_eq_some_iff] at found
  rcases found with ⟨behind, found, rfl⟩
  have split := idxOf?_split found
  have inside : behind < text.length := by
    have length := congrArg List.length split.1
    simp only [List.length_append, List.length_cons, List.length_take, List.length_drop,
      List.length_reverse] at length
    omega
  have absent := split.2
  rw [List.take_reverse, List.mem_reverse] at absent
  have index : text.length - 1 - behind + 1 = text.length - behind := by omega
  rw [index]
  exact absent

end Searching

/-! ## The end of the authority -/

theorem takeWhile_hit {test : UInt8 → Bool} {before after : List UInt8} {c : UInt8}
    (pass : ∀ b ∈ before, test b = true) (stop : test c = false) :
    (before ++ c :: after).takeWhile test = before := by
  rw [List.takeWhile_append_of_pos pass, List.takeWhile_cons, stop]
  simp

theorem isDelimiter_iff {c : UInt8} :
    isDelimiter c = true ↔ c = byte '/' ∨ c = byte '?' ∨ c = byte '#' := by
  simp [isDelimiter, or_assoc]

/-- Up to `p` there is no delimiter, and there is one at `p`. -/
theorem takeWhile_take {s : List UInt8} {c : UInt8} {p : Nat} (found : s.idxOf? c = some p)
    (delimiter : isDelimiter c = true) (before : ∀ b ∈ s.take p, isDelimiter b = false) :
    s.takeWhile (fun c => !isDelimiter c) = s.take p := by
  conv_lhs => rw [(idxOf?_split found).1]
  apply takeWhile_hit
  · intro b member
    rw [before b member]
    rfl
  · rw [delimiter]
    rfl

theorem not_mem_take_of_le {s : List UInt8} {c : UInt8} {p p' : Nat}
    (found : s.idxOf? c = some p') (le : p ≤ p') : c ∉ s.take p := by
  intro member
  exact (idxOf?_split found).2 (List.take_subset_take_left s le member)

/-- Without a `/` the code finds the end of the authority. -/
theorem taken_of_no_slash {s : List UInt8} (noSlash : byte '/' ∉ s) :
    s.take (authorityLength s) = s.takeWhile fun c => !isDelimiter c := by
  have clear {p : Nat} (query : byte '?' ∉ s.take p) (fragment : byte '#' ∉ s.take p) :
      ∀ b ∈ s.take p, isDelimiter b = false := by
    intro b member
    rw [Bool.eq_false_iff, Ne, isDelimiter_iff]
    rintro (rfl | rfl | rfl)
    · exact noSlash (List.mem_of_mem_take member)
    · exact query member
    · exact fragment member
  rw [authorityLength, List.idxOf?_eq_none_iff.mpr noSlash]
  cases query : s.idxOf? (byte '?') with
  | none =>
      have noQuery := List.idxOf?_eq_none_iff.mp query
      cases fragment : s.idxOf? (byte '#') with
      | none =>
          have noFragment := List.idxOf?_eq_none_iff.mp fragment
          simp only [List.take_length]
          symm
          apply List.takeWhile_eq_self_iff.mpr
          intro b member
          rw [← List.take_length (l := s)] at member noQuery noFragment
          rw [clear noQuery noFragment b member]
          rfl
      | some p =>
          have noQuery' : byte '?' ∉ s.take p := fun member =>
            noQuery (List.mem_of_mem_take member)
          exact (takeWhile_take fragment (by decide)
            (clear noQuery' (idxOf?_split fragment).2)).symm
  | some p =>
      cases fragment : s.idxOf? (byte '#') with
      | none =>
          have noFragment : byte '#' ∉ s.take p := fun member =>
            List.idxOf?_eq_none_iff.mp fragment (List.mem_of_mem_take member)
          exact (takeWhile_take query (by decide)
            (clear (idxOf?_split query).2 noFragment)).symm
      | some p' =>
          by_cases less : p' < p
          · simp only [less, if_true]
            exact (takeWhile_take fragment (by decide)
              (clear (not_mem_take_of_le query (Nat.le_of_lt less))
                (idxOf?_split fragment).2)).symm
          · simp only [less, if_false]
            exact (takeWhile_take query (by decide)
              (clear (idxOf?_split query).2
                (not_mem_take_of_le fragment (Nat.not_lt.mp less)))).symm

/-- With a `/` the code takes everything in front of it. -/
theorem taken_of_slash {before after : List UInt8} (noSlash : byte '/' ∉ before) :
    (before ++ byte '/' :: after).take (authorityLength (before ++ byte '/' :: after)) =
      before := by
  rw [authorityLength, idxOf?_append_cons noSlash]
  simp

theorem eq_append_of_mem {s : List UInt8} {c : UInt8} (member : c ∈ s) :
    ∃ before after, s = before ++ c :: after ∧ c ∉ before := by
  cases found : s.idxOf? c with
  | none => exact absurd member (List.idxOf?_eq_none_iff.mp found)
  | some p => exact ⟨_, _, (idxOf?_split found).1, (idxOf?_split found).2⟩

theorem taken_eq_iff (s : List UInt8) :
    s.take (authorityLength s) = s.takeWhile (fun c => !isDelimiter c) ↔
      ¬ ∃ before after, s = before ++ byte '/' :: after ∧ byte '/' ∉ before ∧
        (byte '?' ∈ before ∨ byte '#' ∈ before) := by
  by_cases slash : byte '/' ∈ s
  · rcases eq_append_of_mem slash with ⟨before, after, rfl, noSlash⟩
    rw [taken_of_slash noSlash]
    constructor
    · rintro equal ⟨before', after', split, noSlash', hidden⟩
      have same : before = before' := by
        have taken := @taken_of_slash before' after' noSlash'
        rw [← split, taken_of_slash noSlash] at taken
        exact taken
      have clear : ∀ b ∈ before, isDelimiter b = false := by
        intro b member
        rw [equal] at member
        simpa using List.mem_takeWhile_imp member
      rw [← same] at hidden
      cases hidden with
      | inl member => exact absurd (clear _ member) (by decide)
      | inr member => exact absurd (clear _ member) (by decide)
    · intro notHidden
      symm
      apply takeWhile_hit
      · intro b member
        rw [Bool.not_eq_true', Bool.eq_false_iff, Ne, isDelimiter_iff]
        rintro (rfl | rfl | rfl)
        · exact noSlash member
        · exact notHidden ⟨before, after, rfl, noSlash, Or.inl member⟩
        · exact notHidden ⟨before, after, rfl, noSlash, Or.inr member⟩
      · decide
  · constructor
    · rintro _ ⟨before, after, rfl, _⟩
      exact slash (by simp)
    · exact fun _ => taken_of_no_slash slash

/-! ## The start of the authority -/

theorem not_slashes_of_scheme {str : List UInt8} {e : Nat} (positive : 0 < e)
    (scheme : (str.take e).all isSchemeChar = true) : startsWithSlashes str = false := by
  cases str with
  | nil => rfl
  | cons c rest =>
      rcases Nat.exists_eq_succ_of_ne_zero (Nat.ne_of_gt positive) with ⟨n, rfl⟩
      rw [List.take_succ_cons, List.all_cons, Bool.and_eq_true] at scheme
      rw [startsWithSlashes, Bool.and_eq_false_iff]
      left
      rw [beq_eq_false_iff_ne]
      intro isSlash
      change c = byte '/' at isSlash
      rw [isSlash] at scheme
      exact absurd scheme.1 (by decide)

theorem not_delimiter_of_scheme {scheme : List UInt8} (all : scheme.all isSchemeChar = true) :
    scheme.any isDelimiter = false := by
  rw [List.any_eq_false]
  intro c member isDelimiter
  have isSchemeChar := List.all_eq_true.mp all c member
  rcases isDelimiter_iff.mp isDelimiter with rfl | rfl | rfl
  · exact absurd isSchemeChar (by decide)
  · exact absurd isSchemeChar (by decide)
  · exact absurd isSchemeChar (by decide)

theorem parsePort_start {str p s : List UInt8} {url : PhpUrl} {e : Nat}
    (colon : str.idxOf? (byte ':') = some e) (behind : p = str.drop (e + 1))
    (start : parsePort str p = .authority url s) : s = behindSlashes str := by
  rw [behindSlashes]
  simp only [parsePort] at start
  split at start
  · next digits =>
    split at start
    · cases start
      by_cases slashes : startsWithSlashes str = true
      · rw [slashes]
        rfl
      · simp only [slashes, Bool.false_eq_true, if_false, colon]
        rw [if_neg]
        intro condition
        simp only [Bool.and_eq_true, ← behind, startsWithSlashes, beq_iff_eq] at condition
        -- a port has a digit behind the colon, and no slash
        rcases p with _ | ⟨c, rest⟩
        · simp at digits
        · have isSlash : c = byte '/' := condition.2.1
          subst isSlash
          simp [List.take_succ_cons, show isDigit (byte '/') = false by decide] at digits
    · cases start
  · split at start
    · cases start
    · split at start
      · next slashes =>
        cases start
        rw [slashes]
        rfl
      · cases start

/-- The code looks for the authority where it starts. -/
theorem parseStart_authority {str s : List UInt8} {url : PhpUrl}
    (start : parseStart str = .authority url s) : s = behindSlashes str := by
  rw [parseStart] at start
  cases colon : str.idxOf? (byte ':') with
  | none =>
      rw [colon] at start
      simp only at start
      split at start
      · next slashes =>
        cases start
        rw [behindSlashes, slashes]
        rfl
      · cases start
  | some e =>
      rw [colon] at start
      simp only at start
      split at start
      · exact parsePort_start colon rfl start
      · next notFirst =>
        have positive : 0 < e := Nat.pos_of_ne_zero notFirst
        split at start
        · split at start
          · exact parsePort_start colon rfl start
          · cases start
        · next valid =>
          simp only [Bool.not_eq_true', Bool.not_eq_false] at valid
          split at start
          · cases start
          · split at start
            · next slash =>
              rw [parseBehindScheme] at start
              split at start
              · next second =>
                split at start
                · cases start
                · cases start
                  have slashes : startsWithSlashes (str.drop (e + 1)) = true := by
                    rw [startsWithSlashes, slash, second]
                    rfl
                  rw [behindSlashes, not_slashes_of_scheme positive valid]
                  simp only [Bool.false_eq_true, if_false, colon]
                  rw [if_pos, List.drop_drop]
                  rw [not_delimiter_of_scheme valid, slashes]
                  simpa using positive
              · cases start
            · split at start
              · exact parsePort_start colon rfl start
              · cases start

/-! ## The host -/

theorem mem_replaceControlchars {c : UInt8} {text : List UInt8}
    (member : c ∈ replaceControlchars text) : c ∈ text ∨ c = byte '_' := by
  rw [replaceControlchars, List.mem_map] at member
  rcases member with ⟨b, member, rfl⟩
  split
  · exact Or.inr rfl
  · exact Or.inl member

/-- The host is a part of the text behind the login. -/
theorem cutPort_subset {url url' : PhpUrl} {s host : List UInt8}
    (cut : cutPort url s = some (url', host)) : ∀ c ∈ host, c ∈ s := by
  rw [cutPort] at cut
  split at cut
  · cases cut
    exact fun _ => id
  · split at cut
    · next p _ =>
      have part : host = s.take p := by
        split at cut
        · simp only at cut
          split at cut
          · cases cut
          · split at cut
            · split at cut
              · cases cut
                rfl
              · cases cut
            · cases cut
              rfl
        · cases cut
          rfl
      intro c member
      rw [part] at member
      exact List.mem_of_mem_take member
    · cases cut
      exact fun _ => id

theorem cutLogin_rest (url : PhpUrl) (authority : List UInt8) :
    byte '@' ∉ (cutLogin url authority).2 ∧
      ∀ c ∈ (cutLogin url authority).2, c ∈ authority := by
  rw [cutLogin]
  split
  · next p found => exact ⟨memrchr_some found, fun c member => List.mem_of_mem_drop member⟩
  · next absent => exact ⟨memrchr_none absent, fun _ => id⟩

theorem cutHost_subset {url url' : PhpUrl} {authority host : List UInt8}
    (cut : cutHost url authority = some url') (hasHost : url'.host = some host) :
    (∀ c ∈ host, c ∈ authority ∨ c = byte '_') ∧ byte '@' ∉ host := by
  rw [cutHost] at cut
  have rest := cutLogin_rest url authority
  generalize cutLogin url authority = login at cut rest
  rcases login with ⟨url, s⟩
  simp only at cut rest
  split at cut
  · next url host' port =>
    split at cut
    · cases cut
    · cases cut
      cases hasHost
      have part := cutPort_subset port
      constructor
      · intro c member
        cases mem_replaceControlchars member with
        | inl member => exact Or.inl (rest.2 c (part c member))
        | inr other => exact Or.inr other
      · intro member
        cases mem_replaceControlchars member with
        | inl member => exact rest.1 (part _ member)
        | inr other => exact absurd other (by decide)
  · cases cut

theorem parsePath_host (url : PhpUrl) (s : List UInt8) : (parsePath url s).host = url.host := by
  rw [parsePath]
  split
  · split <;> rfl
  all_goals rfl

/-- The first stage leaves the host unset. -/
def Start.Hostless : Start → Prop
  | .done url | .nohost url _ => url.host = none
  | .null | .authority _ _ => True

theorem parsePort_hostless (s p : List UInt8) : (parsePort s p).Hostless := by
  rw [parsePort]
  simp only
  split_ifs <;> trivial

theorem parseBehindScheme_hostless (scheme rest : List UInt8) :
    (parseBehindScheme scheme rest).Hostless := by
  rw [parseBehindScheme]
  simp only
  split_ifs <;> trivial

theorem parseStart_hostless (str : List UInt8) : (parseStart str).Hostless := by
  rw [parseStart]
  split
  · simp only
    split_ifs
    · exact parsePort_hostless _ _
    · exact parsePort_hostless _ _
    · rfl
    · rfl
    · exact parseBehindScheme_hostless _ _
    · exact parsePort_hostless _ _
    · rfl
  · split_ifs <;> trivial

/-- A host is cut from the authority that the code takes. -/
theorem parse_cases {str host : List UInt8} {url : PhpUrl} (parsed : phpUrlParseEx str = some url)
    (hasHost : url.host = some host) :
    ∃ taken, takenAuthority str = some taken ∧
      taken = (behindSlashes str).take (authorityLength (behindSlashes str)) ∧
      (∀ c ∈ host, c ∈ taken ∨ c = byte '_') ∧ byte '@' ∉ host := by
  rw [phpUrlParseEx] at parsed
  cases start : parseStart str with
  | null =>
      rw [start] at parsed
      cases parsed
  | done url' =>
      rw [start] at parsed
      cases parsed
      have hostless := parseStart_hostless str
      rw [start] at hostless
      exact absurd (hasHost.symm.trans hostless) (by simp)
  | nohost url' s =>
      rw [start] at parsed
      cases parsed
      have hostless := parseStart_hostless str
      rw [start] at hostless
      rw [parsePath_host] at hasHost
      exact absurd (hasHost.symm.trans hostless) (by simp)
  | authority url' s =>
      rw [start] at parsed
      simp only [Option.bind_eq_bind, Option.bind_eq_some_iff, Option.pure_def,
        Option.some.injEq] at parsed
      rcases parsed with ⟨cut, cutHost, rest⟩
      have cutHasHost : cut.host = some host := by
        rw [← hasHost, ← rest]
        split
        · rfl
        · rw [parsePath_host]
      refine ⟨s.take (authorityLength s), by rw [takenAuthority, start], ?_,
        cutHost_subset cutHost cutHasHost⟩
      rw [parseStart_authority start]

/-- The host has no delimiter and comes from the authority of the URL, if the URL does not have
a `?` or `#` in front of its first `/`. -/
theorem host_authority_iff {str host : List UInt8} {url : PhpUrl}
    (parsed : phpUrlParseEx str = some url) (hasHost : url.host = some host) :
    Clean host ∧ takenAuthority str = some (authority str) ↔ ¬ HidesDelimiter str := by
  rcases parse_cases parsed hasHost with ⟨taken, isTaken, equal, subset, noAt⟩
  have right : takenAuthority str = some (authority str) ↔ ¬ HidesDelimiter str := by
    rw [isTaken, equal, Option.some.injEq]
    exact taken_eq_iff (behindSlashes str)
  constructor
  · exact fun property => right.mp property.2
  · intro notHidden
    refine ⟨?_, right.mpr notHidden⟩
    have isAuthority : taken = authority str := by
      rw [right.mpr notHidden] at isTaken
      exact (Option.some.inj isTaken).symm
    have clear {c : UInt8} (delimiter : isDelimiter c = true) (other : c ≠ byte '_') :
        c ∉ host := by
      intro member
      cases subset c member with
      | inl member =>
          rw [isAuthority] at member
          have pass := List.mem_takeWhile_imp member
          rw [delimiter] at pass
          cases pass
      | inr equal => exact other equal
    exact ⟨clear (by decide) (by decide), clear (by decide) (by decide),
      clear (by decide) (by decide), noAt⟩

/-- `x://a/b?c` -/
theorem host_authority_plain :
    ∃ url host, phpUrlParseEx ("x://a/b?c".toList.map byte) = some url ∧
      url.host = some host ∧ Clean host ∧
      takenAuthority ("x://a/b?c".toList.map byte) =
        some (authority ("x://a/b?c".toList.map byte)) := by
  have parsed : phpUrlParseEx ("x://a/b?c".toList.map byte) =
      some { emptyUrl with
        scheme := some [byte 'x']
        host := some [byte 'a']
        path := some [byte '/', byte 'b']
        query := some [byte 'c'] } := by decide
  refine ⟨_, _, parsed, rfl, (host_authority_iff parsed rfl).mpr ?_⟩
  rintro ⟨before, after, split, noSlash, hidden⟩
  have taken := @taken_of_slash before after noSlash
  rw [← split] at taken
  rw [← taken] at hidden
  revert hidden
  decide

/-- `x://a?b/c` has the host `a?b`, and `x://a#@b/` the host `b`. -/
theorem host_hides_delimiter :
    (∃ url, phpUrlParseEx ("x://a?b/c".toList.map byte) = some url ∧
      url.host = some [byte 'a', byte '?', byte 'b']) ∧
    ∃ url, phpUrlParseEx ("x://a#@b/".toList.map byte) = some url ∧
      url.host = some [byte 'b'] ∧ authority ("x://a#@b/".toList.map byte) = [byte 'a'] := by
  have first : (phpUrlParseEx ("x://a?b/c".toList.map byte)).map PhpUrl.host =
      some (some [byte 'a', byte '?', byte 'b']) := by decide
  have second : (phpUrlParseEx ("x://a#@b/".toList.map byte)).map PhpUrl.host =
      some (some [byte 'b']) := by decide
  rw [Option.map_eq_some_iff] at first second
  rcases second with ⟨url, parsed, hasHost⟩
  exact ⟨first, url, parsed, hasHost, by decide⟩

end PhpRuntime.Url
