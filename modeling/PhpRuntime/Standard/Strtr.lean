import PhpRuntime.Foundation.Buckets
import PhpRuntime.Foundation.Calls
import PhpRuntime.Foundation.Integers
import PhpRuntime.Foundation.LongestMatch
import PhpRuntime.Sort.Sorted
import PhpRuntime.Values.Value

/-! # Translating by an array

`php_strtr_array` of `ext/standard/string.c`: a search for many patterns at once. The last bytes
of the shortest pattern's window are hashed. One table says how far the window can be moved, and
another one where the patterns with that hash stand in an array that is sorted by it. A `STRLEN`
is a `size_t`, and the memory around the text can be read.
-/

namespace PhpRuntime.Standard

open Buckets Calls Decimal Integers LongestMatch Values PhpRuntime.Exchange PhpRuntime.Sort

/-! ## The text and the patterns -/

/-- The text: what is found at an offset from it, and its length. -/
structure Text where
  memory : Nat → UInt8
  l : Nat

/-- `len` bytes from an offset on. -/
def Text.window (text : Text) (start len : Nat) : List UInt8 :=
  (List.range len).map fun i => text.memory ((start + i) % 2 ^ 64)

def Text.content (text : Text) : List UInt8 := text.window 0 text.l

structure PatnRepl where
  pat : List UInt8
  repl : List UInt8
  deriving DecidableEq

/-- A key as a string; numbers are printed with `%ld`. -/
def keyText : Key → List UInt8
  | .long n => if n.toInt < 0 then byte '-' :: print 20 n.toInt.natAbs [] else print 20 n.toNat []
  | .string bytes => bytes

/-- The loop of `php_strtr_array_prepare_repls`; there are no patterns if a key is empty. -/
def phpStrtrArrayPrepareRepls (slen : Nat) :
    List (Key × List UInt8) → Option (List PatnRepl)
  | [] => some []
  | (key, value) :: pats =>
      if keyText key = [] then none
      else if slen < (keyText key).length then phpStrtrArrayPrepareRepls slen pats
      else (phpStrtrArrayPrepareRepls slen pats).map (⟨keyText key, value⟩ :: ·)

/-! ## The tables -/

def phpStrtrHash (bytes : List UInt8) : UInt16 :=
  bytes.foldl (fun res c => res * 33 + c.toUInt16) 0

/-- `SHIFT_TAB_SIZE - 1` -/
def shiftMask : UInt16 := 8191

/-- `HASH_TAB_SIZE - 1` -/
def hashMask : UInt16 := 1023

def hashTabSize : Nat := 1024

/-- `php_strtr_hash(&S(pat)[j], B)` -/
def blockHash (pnr : PatnRepl) (j B : Nat) : UInt16 := phpStrtrHash ((pnr.pat.drop j).take B)

/-- The hash of the last bytes of the window, by which the patterns are sorted. -/
def suffixHash (m B : Nat) (pnr : PatnRepl) : Nat := (blockHash pnr (m - B) B &&& hashMask).toNat

/-- `shift->entries[h] = MIN(shift->entries[h], m - j - B)` -/
def lower (shift : Nat → Nat) (entry : Nat × Nat) : Nat → Nat :=
  Function.update shift entry.1 (min (shift entry.1) entry.2)

def phpStrtrPopulateShift (patterns : List PatnRepl) (B m : Nat) : Nat → Nat :=
  (patterns.flatMap fun pnr => (List.range (m - B + 1)).map fun j =>
    ((blockHash pnr j B &&& shiftMask).toNat, m - j - B)).foldl lower fun _ => m - B + 1

def phpStrtrCompareHashSuffix (m B : Nat) (a b : PatnRepl) : Int :=
  if suffixHash m B a > suffixHash m B b then 1
  else if suffixHash m B a < suffixHash m B b then -1
  else if a.pat.length > b.pat.length then -1
  else if a.pat.length < b.pat.length then 1
  else 0

/-- The first index of each hash, with `last_h` the hash before. -/
def firstIndices (key : PatnRepl → Nat) :
    List PatnRepl → Nat → Nat → (Nat → Int) → Nat → Int
  | [], _, _, entries => entries
  | pnr :: patterns, i, lastH, entries =>
      if key pnr ≠ lastH then
        firstIndices key patterns (i + 1) (key pnr) (Function.update entries (key pnr) i)
      else firstIndices key patterns (i + 1) lastH entries

/-- A hash without patterns gets the entry of the next one. -/
def fillDown : Nat → (Nat → Int) → Nat → Int
  | 0, entries => entries
  | i + 1, entries =>
      fillDown i (if entries i = -1 then Function.update entries i (entries (i + 1)) else entries)

/-- `res->hash`; `last_h` starts as the largest `HASH`. -/
def hashEntries (key : PatnRepl → Nat) (patterns : List PatnRepl) : Nat → Int :=
  fillDown hashTabSize (Function.update (firstIndices key patterns 0 65535 fun _ => -1)
    hashTabSize patterns.length)

structure Ppres where
  B : Nat
  Bp : Nat
  m : Nat
  shift : Nat → Nat
  hash : Nat → Int
  prefixes : List UInt16
  patterns : List PatnRepl

/-- The length of the shortest pattern, `(STRLEN)-1` if there is none -/
def minLength (patterns : List PatnRepl) : Nat :=
  patterns.foldl (fun m pnr => if pnr.pat.length < m then pnr.pat.length else m) (2 ^ 64 - 1)

/-- The tables for the patterns, which `sorted` has in the order of their hashes. -/
def Ppres.of (patterns sorted : List PatnRepl) (m B Bp : Nat) : Ppres where
  B := B
  Bp := Bp
  m := m
  shift := phpStrtrPopulateShift patterns B m
  hash := hashEntries (suffixHash m B) sorted
  prefixes := sorted.map fun pnr => blockHash pnr 0 Bp
  patterns := sorted

def phpStrtrArrayPrepare (patterns : List PatnRepl) (B Bp : Nat) : Option Ppres :=
  let m := minLength patterns
  let B := min B m
  let Bp := min Bp m
  (zendQsort (listArray PatnRepl 32) (phpStrtrCompareHashSuffix m B) patterns
    patterns.length).map fun sorted => Ppres.of patterns sorted m B Bp

/-! ## The search -/

/-- An offset from the text and a number of bytes. -/
abbrev Range := Nat × Nat

/-- The patterns from `offset_start` to `offset_end`, with the hashes of their first bytes. -/
def Ppres.candidates (d : Ppres) (h2 : Nat) : List (PatnRepl × UInt16) :=
  ((d.patterns.zip d.prefixes).take (d.hash (h2 + 1)).toNat).drop (d.hash h2).toNat

/-- The loop over the candidates: what it compares, and the pattern that it finds. -/
def scan (text : Text) (pos : Nat) (prefixH : UInt16) :
    List (PatnRepl × UInt16) → List Range × Option PatnRepl
  | [] => ([], none)
  | (pnr, hash) :: candidates =>
      if hash ≠ prefixH then scan text pos prefixH candidates
      else if pnr.pat.length > sizeT (text.l - pos) then scan text pos prefixH candidates
      else if text.window pos pnr.pat.length ≠ pnr.pat then
        let later := scan text pos prefixH candidates
        ((pos, pnr.pat.length) :: later.1, later.2)
      else ([(pos, pnr.pat.length)], some pnr)

/-- `pos + d->m - d->B`, where the last bytes of the window start -/
def Ppres.start (d : Ppres) (pos : Nat) : Nat := sizeT (pos + d.m - d.B)

/-- The hash of the last bytes of the window, as an index into the shift table. -/
def windowHash (text : Text) (d : Ppres) (pos : Nat) : UInt16 :=
  phpStrtrHash (text.window (d.start pos) d.B) &&& shiftMask

/-- The loop of `php_strtr_array_do_repl`: what it appends to the result, and the bytes of the
text that it hashes and compares. -/
def doReplLoop (text : Text) (d : Ppres) (lastpos : Nat) :
    Nat → Nat → Nat → Option (List UInt8 × List Range)
  | 0, _, _ => none
  | fuel + 1, pos, nextwpos =>
      if pos ≤ lastpos then
        let h := windowHash text d pos
        let shift := d.shift h.toNat
        if 0 < shift then
          (doReplLoop text d lastpos fuel (sizeT (pos + shift)) nextwpos).map fun later =>
            (later.1, (d.start pos, d.B) :: later.2)
        else
          let prefixH := phpStrtrHash (text.window pos d.Bp)
          let scanned := scan text pos prefixH (d.candidates (h &&& hashMask).toNat)
          let reads := (d.start pos, d.B) :: (pos, d.Bp) :: scanned.1
          match scanned.2 with
          | some pnr =>
              let next := sizeT (pos + pnr.pat.length)
              (doReplLoop text d lastpos fuel next next).map fun later =>
                (text.window nextwpos (sizeT (pos - nextwpos)) ++ (pnr.repl ++ later.1),
                  reads ++ later.2)
          | none =>
              (doReplLoop text d lastpos fuel (sizeT (pos + 1)) nextwpos).map fun later =>
                (later.1, reads ++ later.2)
      else some (text.window nextwpos (sizeT (text.l - nextwpos)), [])

/-- `php_strtr_array_do_repl` in front of the return -/
def phpStrtrArrayDoRepl (text : Text) (d : Ppres) : Option (List UInt8 × List Range) :=
  doReplLoop text d (sizeT (text.l - d.m)) (text.l + 1) 0 0

/-- `return_value`; the length of a string is an `int` of its own. -/
inductive Translation where
  | false
  | string (bytes : List UInt8) (len : Int)
  deriving DecidableEq

/-- `php_strtr_array`, with the bytes of the text that were hashed and compared. No memory is
there for a negative number of patterns. -/
def phpStrtrArray (text : Text) (pats : List (Key × List UInt8)) :
    Outcome (Translation × List Range) :=
  if int pats.length = 0 then .returned (.string text.content text.l, [])
  else if int pats.length < 0 then .stopped
  else
    match phpStrtrArrayPrepareRepls text.l pats with
    | none => .returned (.false, [])
    | some patterns =>
        Outcome.ofOption <| (phpStrtrArrayPrepare patterns 2 2).bind fun d =>
          (phpStrtrArrayDoRepl text d).map fun done =>
            (.string done.1 (int done.1.length), done.2)

/-! ## Windows of the text -/

theorem Text.length_content (text : Text) : text.content.length = text.l := by
  simp [Text.content, Text.window]

variable {text : Text} {start len : Nat}

theorem Text.window_eq (inside : start + len ≤ text.l) :
    text.window start len = (text.content.drop start).take len := by
  apply List.ext_getElem?
  intro i
  simp only [Text.content, Text.window, List.getElem?_take, List.getElem?_drop, List.getElem?_map]
  by_cases less : i < len
  · rw [List.getElem?_range less, if_pos less, List.getElem?_range (by omega)]
    simp only [Option.map_some, Nat.zero_add]
  · rw [if_neg less, List.getElem?_eq_none (by rw [List.length_range]; omega)]
    rfl

/-- A block of a pattern that stands in the text. -/
theorem Text.block_eq {pat : List UInt8} {place j B : Nat}
    (stands : pat <+: text.content.drop place) (bound : place ≤ text.l)
    (inside : j + B ≤ pat.length) :
    (pat.drop j).take B = text.window (place + j) B := by
  obtain ⟨rest, equal⟩ := stands
  have length := congrArg List.length equal
  rw [List.length_append, List.length_drop, text.length_content] at length
  rw [text.window_eq (by omega), ← List.drop_drop, ← equal,
    List.drop_append_of_le_length (by omega), List.take_append_of_le_length]
  rw [List.length_drop]
  omega

theorem Text.stands_iff {pat : List UInt8} {place : Nat} (bound : place ≤ text.l) :
    pat <+: text.content.drop place
      ↔ pat.length ≤ text.l - place ∧ text.window place pat.length = pat := by
  constructor
  · intro stands
    have length := stands.length_le
    rw [List.length_drop, text.length_content] at length
    have block := Text.block_eq stands bound (Nat.le_of_eq (Nat.zero_add _))
    rw [List.drop_zero, List.take_length, Nat.add_zero] at block
    exact ⟨length, block.symm⟩
  · rintro ⟨length, same⟩
    rw [Text.window_eq (by omega)] at same
    rw [← same]
    exact List.take_prefix _ _

/-! ## The shift table -/

theorem lower_le (shift : Nat → Nat) (entry : Nat × Nat) (h : Nat) :
    lower shift entry h ≤ shift h := by
  by_cases same : h = entry.1
  · subst same
    simp [lower]
  · simp [lower, same]

theorem foldl_lower_le (entries : List (Nat × Nat)) (shift : Nat → Nat) (h : Nat) :
    entries.foldl lower shift h ≤ shift h := by
  induction entries generalizing shift with
  | nil => exact Nat.le_refl _
  | cons entry entries induction =>
      exact Nat.le_trans (induction (lower shift entry)) (lower_le shift entry h)

theorem foldl_lower_le_of_mem {entries : List (Nat × Nat)} {h value : Nat}
    (member : (h, value) ∈ entries) (shift : Nat → Nat) :
    entries.foldl lower shift h ≤ value := by
  induction entries generalizing shift with
  | nil => contradiction
  | cons entry entries induction =>
      rcases List.mem_cons.mp member with rfl | later
      · apply Nat.le_trans (foldl_lower_le entries _ h)
        simp [lower]
      · exact induction later (lower shift entry)

theorem phpStrtrPopulateShift_le (patterns : List PatnRepl) (B m h : Nat) :
    phpStrtrPopulateShift patterns B m h ≤ m - B + 1 :=
  foldl_lower_le _ _ h

/-- The window is not moved past a block of a pattern. -/
theorem phpStrtrPopulateShift_block {patterns : List PatnRepl} {B m j : Nat} {pnr : PatnRepl}
    (member : pnr ∈ patterns) (inside : j ≤ m - B) :
    phpStrtrPopulateShift patterns B m (blockHash pnr j B &&& shiftMask).toNat ≤ m - j - B := by
  apply foldl_lower_le_of_mem
  apply List.mem_flatMap.mpr
  refine ⟨pnr, member, List.mem_map.mpr ⟨j, ?_, rfl⟩⟩
  rw [List.mem_range]
  omega

/-! ## The table of the buckets -/

section Buckets

variable {key : PatnRepl → Nat} {patterns : List PatnRepl}

/-- The entry of a hash is its first index, if patterns have it and it is not the one before. -/
theorem firstIndices_eq (sorted : SortedBy key patterns) (i lastH : Nat) (entries : Nat → Int)
    (least : ∀ pnr ∈ patterns, key pnr = lastH → ∀ other ∈ patterns, lastH ≤ key other) (h : Nat) :
    (h ≠ lastH → (∃ pnr ∈ patterns, key pnr = h) →
      firstIndices key patterns i lastH entries h = i + below key patterns h)
    ∧ ((h = lastH ∨ ∀ pnr ∈ patterns, key pnr ≠ h) →
      firstIndices key patterns i lastH entries h = entries h) := by
  induction patterns generalizing i lastH entries with
  | nil => simp [firstIndices]
  | cons pnr patterns induction =>
      obtain ⟨first, later⟩ := List.pairwise_cons.mp sorted
      rw [firstIndices, below_cons]
      by_cases same : key pnr = lastH
      · rw [if_neg (not_not_intro same)]
        have rest := induction later (i + 1) lastH entries
          (fun other member _ another anotherMember => same ▸ first another anotherMember)
        refine ⟨fun different exists_ => ?_, fun absent => rest.2 ?_⟩
        · obtain ⟨other, member, equal⟩ := exists_
          rcases List.mem_cons.mp member with rfl | member
          · exact absurd (equal.symm.trans same) different
          · have bound := first other member
            rw [rest.1 different ⟨other, member, equal⟩, if_pos (by omega)]
            push_cast
            omega
        · exact absent.imp_right fun none other member => none other (List.mem_cons_of_mem _ member)
      · rw [if_pos same]
        have rest := induction later (i + 1) (key pnr) (Function.update entries (key pnr) i)
          (fun other member _ another anotherMember => first another anotherMember)
        refine ⟨fun different exists_ => ?_, fun absent => ?_⟩
        · by_cases here : h = key pnr
          · rw [rest.2 (Or.inl here), here, Function.update_self, below_eq_zero first,
              if_neg (Nat.lt_irrefl _)]
            simp
          · obtain ⟨other, member, equal⟩ := exists_
            rcases List.mem_cons.mp member with rfl | member
            · exact absurd equal.symm here
            · have bound := first other member
              rw [rest.1 here ⟨other, member, equal⟩, if_pos (by omega)]
              push_cast
              omega
        · have here : h ≠ key pnr := by
            rintro rfl
            rcases absent with equal | none
            · exact same equal
            · exact none pnr List.mem_cons_self rfl
          have missing : ∀ other ∈ patterns, key other ≠ h := by
            intro other member equal
            rcases absent with isLast | none
            · have bound := first other member
              have known := least other (List.mem_cons_of_mem _ member) (equal.trans isLast) pnr
                List.mem_cons_self
              omega
            · exact none other (List.mem_cons_of_mem _ member) equal
          rw [rest.2 (Or.inr missing), Function.update_of_ne here]

/-- Filling the gaps from the end, if an entry that is missing is the same as the next one. -/
theorem fillDown_eq {count : Nat → Nat} {size n : Nat} (bound : n ≤ size) (entries : Nat → Int)
    (done : ∀ h, n ≤ h → h ≤ size → entries h = count h)
    (gaps : ∀ h, h < n → entries h = count h ∨ (entries h = -1 ∧ count h = count (h + 1))) :
    ∀ h, h ≤ size → fillDown n entries h = count h := by
  induction n generalizing entries with
  | zero => exact fun h inside => done h (Nat.zero_le h) inside
  | succ n induction =>
      rw [fillDown]
      apply induction (by omega)
      · intro h lower upper
        by_cases here : h = n
        · subst here
          split
          · next missing =>
            rw [Function.update_self, done (h + 1) (Nat.le_refl _) (by omega)]
            rcases gaps h (Nat.lt_succ_self h) with equal | ⟨_, same⟩
            · omega
            · rw [same]
          · next present =>
            rcases gaps h (Nat.lt_succ_self h) with equal | ⟨missing, _⟩
            · exact equal
            · exact absurd missing present
        · have further := done h (by omega) upper
          split
          · rwa [Function.update_of_ne here]
          · exact further
      · intro h less
        have before := gaps h (by omega)
        split
        · rwa [Function.update_of_ne (Nat.ne_of_lt less)]
        · exact before

theorem hashEntries_eq (sorted : SortedBy key patterns)
    (small : ∀ pnr ∈ patterns, key pnr < hashTabSize) {h : Nat} (inside : h ≤ hashTabSize) :
    hashEntries key patterns h = below key patterns h := by
  refine fillDown_eq (Nat.le_refl _) _ ?_ ?_ h inside
  · intro h lower upper
    obtain rfl : h = hashTabSize := Nat.le_antisymm upper lower
    rw [Function.update_self, below_of_all small]
  · intro h less
    have first := firstIndices_eq sorted 0 65535 (fun _ => -1) (by
      intro pnr member equal
      have bound := small pnr member
      simp only [hashTabSize] at bound
      omega) h
    rw [Function.update_of_ne (Nat.ne_of_lt less)]
    by_cases present : ∃ pnr ∈ patterns, key pnr = h
    · left
      rw [first.1 (by simp only [hashTabSize] at less; omega) present]
      simp
    · right
      have missing : ∀ pnr ∈ patterns, key pnr ≠ h := fun pnr member equal =>
        present ⟨pnr, member, equal⟩
      exact ⟨first.2 (Or.inr missing), (below_succ missing).symm⟩

end Buckets

/-! ## One step of the search -/

/-- What the search needs to know about its tables. -/
structure Prepared (text : Text) (pairs : List (List UInt8 × List UInt8)) (d : Ppres) : Prop where
  block_pos : 0 < d.B
  block_le : d.B ≤ d.m
  prefix_le : d.Bp ≤ d.m
  fits : d.m ≤ text.l
  shortest : ∀ pnr ∈ d.patterns, d.m ≤ pnr.pat.length
  shift_le : ∀ h, d.shift h ≤ d.m - d.B + 1
  shift_block : ∀ pnr ∈ d.patterns, ∀ j ≤ d.m - d.B,
    d.shift (blockHash pnr j d.B &&& shiftMask).toNat ≤ d.m - j - d.B
  in_bucket : ∀ pnr ∈ d.patterns,
    (pnr, blockHash pnr 0 d.Bp) ∈ d.candidates (suffixHash d.m d.B pnr)
  candidate : ∀ h, ∀ c ∈ d.candidates h, c.1 ∈ d.patterns ∧ c.2 = blockHash c.1 0 d.Bp
  sorted : ∀ h, (d.candidates h).Pairwise fun a b =>
    suffixHash d.m d.B a.1 = suffixHash d.m d.B b.1 → b.1.pat.length ≤ a.1.pat.length
  listed : ∀ pnr ∈ d.patterns, (pnr.pat, pnr.repl) ∈ pairs
  covered : ∀ pair ∈ pairs, pair.1.length ≤ text.l → ⟨pair.1, pair.2⟩ ∈ d.patterns

/-- All bytes of the range are bytes of the text. -/
def Text.Inside (text : Text) (range : Range) : Prop := range.1 + range.2 ≤ text.l

section Search

variable {pairs : List (List UInt8 × List UInt8)} {d : Ppres} {pos place : Nat}

theorem Prepared.start_eq (prepared : Prepared text pairs d) (small : text.l < 2 ^ 31)
    (window : pos ≤ text.l - d.m) : d.start pos = pos + d.m - d.B := by
  have fits := prepared.fits
  have blockLe := prepared.block_le
  exact sizeT_eq (by omega) (by omega)

theorem Prepared.pattern (prepared : Prepared text pairs d) {pair : List UInt8 × List UInt8}
    (member : pair ∈ pairs) (stands : pair.1 <+: text.content.drop place) :
    ⟨pair.1, pair.2⟩ ∈ d.patterns := by
  have length := stands.length_le
  rw [List.length_drop, text.length_content] at length
  exact prepared.covered pair member (by omega)

theorem Prepared.blockHash_eq (prepared : Prepared text pairs d) {pnr : PatnRepl} {j B : Nat}
    (member : pnr ∈ d.patterns) (stands : pnr.pat <+: text.content.drop place)
    (bound : place ≤ text.l) (inside : j + B ≤ d.m) :
    blockHash pnr j B = phpStrtrHash (text.window (place + j) B) := by
  have shortest := prepared.shortest pnr member
  rw [blockHash, Text.block_eq stands bound (by omega)]

/-- No pattern starts at a place that the window is moved over. -/
theorem Prepared.free_of_shift (prepared : Prepared text pairs d) (small : text.l < 2 ^ 31)
    (window : pos ≤ text.l - d.m) (lower : pos ≤ place)
    (upper : place < pos + d.shift (windowHash text d pos).toNat) :
    Free pairs text.content place := by
  intro pair member stands
  have fits := prepared.fits
  have blockLe := prepared.block_le
  have blockPos := prepared.block_pos
  have shiftLe := prepared.shift_le (windowHash text d pos).toNat
  have listed := prepared.pattern member stands
  have hash := prepared.blockHash_eq (j := d.m - d.B - (place - pos)) (B := d.B) listed stands
    (by omega) (by omega)
  have shift := prepared.shift_block _ listed (d.m - d.B - (place - pos)) (by omega)
  rw [hash, show place + (d.m - d.B - (place - pos)) = pos + d.m - d.B by omega] at shift
  rw [windowHash, prepared.start_eq small window] at upper
  omega

theorem Prepared.free_of_end (prepared : Prepared text pairs d) (lower : text.l - d.m < place) :
    Free pairs text.content place := by
  intro pair member stands
  have fits := prepared.fits
  have blockLe := prepared.block_le
  have blockPos := prepared.block_pos
  have shortest := prepared.shortest _ (prepared.pattern member stands)
  have length := stands.length_le
  rw [List.length_drop, text.length_content] at length
  dsimp only at shortest
  omega

/-- What may be chosen at a place: a longest one of the candidates that stand there. -/
def Chosen (text : Text) (pos : Nat) (candidates : List (PatnRepl × UInt16)) :
    Option PatnRepl → Prop
  | none => ∀ c ∈ candidates, ¬c.1.pat <+: text.content.drop pos
  | some pnr => (∃ c ∈ candidates, c.1 = pnr) ∧ pnr.pat <+: text.content.drop pos
      ∧ ∀ c ∈ candidates, c.1.pat <+: text.content.drop pos → c.1.pat.length ≤ pnr.pat.length

/-- A candidate that does not stand in the text leaves the choice to the others. -/
theorem Chosen.cons {c : PatnRepl × UInt16} {candidates : List (PatnRepl × UInt16)}
    {choice : Option PatnRepl} (chosen : Chosen text pos candidates choice)
    (missing : ¬c.1.pat <+: text.content.drop pos) : Chosen text pos (c :: candidates) choice := by
  cases choice with
  | none => exact List.forall_mem_cons.mpr ⟨missing, chosen⟩
  | some pnr =>
      obtain ⟨⟨other, member, equal⟩, prefixed, longest⟩ := chosen
      refine ⟨⟨other, List.mem_cons_of_mem _ member, equal⟩, prefixed, ?_⟩
      exact List.forall_mem_cons.mpr ⟨fun stands => absurd stands missing, longest⟩

/-- The loop over the candidates returns the first one that stands in the text. -/
theorem scan_spec {prefixH : UInt16} {candidates : List (PatnRepl × UInt16)}
    (small : text.l < 2 ^ 31) (bound : pos ≤ text.l)
    (hashes : ∀ c ∈ candidates, c.1.pat <+: text.content.drop pos → c.2 = prefixH)
    (sorted : candidates.Pairwise fun a b => a.1.pat <+: text.content.drop pos →
      b.1.pat <+: text.content.drop pos → b.1.pat.length ≤ a.1.pat.length) :
    (∀ range ∈ (scan text pos prefixH candidates).1, text.Inside range)
    ∧ Chosen text pos candidates (scan text pos prefixH candidates).2 := by
  induction candidates with
  | nil => simp [scan, Chosen]
  | cons c candidates induction =>
      obtain ⟨first, later⟩ := List.pairwise_cons.mp sorted
      obtain ⟨insides, chosen⟩ := induction
        (fun other member => hashes other (List.mem_cons_of_mem _ member)) later
      have stands := @Text.stands_iff text c.1.pat pos bound
      have left : sizeT (text.l - pos) = text.l - pos := sizeT_eq (by omega) (by omega)
      simp only [scan, left]
      split
      · next other =>
        refine ⟨insides, chosen.cons fun prefixed => ?_⟩
        exact other (hashes c List.mem_cons_self prefixed)
      · split
        · next long =>
          refine ⟨insides, chosen.cons fun prefixed => ?_⟩
          have length := (stands.mp prefixed).1
          omega
        · next short =>
          have inside : text.Inside (pos, c.1.pat.length) := by
            simp only [Text.Inside]
            omega
          split
          · next different =>
            refine ⟨List.forall_mem_cons.mpr ⟨inside, insides⟩, chosen.cons fun prefixed => ?_⟩
            exact different (stands.mp prefixed).2
          · next same =>
            have prefixed := stands.mpr ⟨by omega, Decidable.not_not.mp same⟩
            refine ⟨List.forall_mem_singleton.mpr inside, ⟨c, List.mem_cons_self, rfl⟩, prefixed,
              List.forall_mem_cons.mpr ⟨fun _ => Nat.le_refl _, ?_⟩⟩
            exact fun other member prefixed' => first other member prefixed prefixed'

theorem and_masks (hash : UInt16) : hash &&& shiftMask &&& hashMask = hash &&& hashMask := by
  rw [UInt16.and_assoc]
  rfl

/-- A pattern that stands at a place has the hash by which its bucket is looked up there. -/
theorem Prepared.suffixHash_eq (prepared : Prepared text pairs d) (small : text.l < 2 ^ 31)
    (window : pos ≤ text.l - d.m) {pnr : PatnRepl} (member : pnr ∈ d.patterns)
    (stands : pnr.pat <+: text.content.drop pos) :
    suffixHash d.m d.B pnr = (windowHash text d pos &&& hashMask).toNat := by
  have fits := prepared.fits
  have blockLe := prepared.block_le
  have blockPos := prepared.block_pos
  rw [suffixHash, prepared.blockHash_eq member stands (by omega) (by omega), windowHash,
    and_masks, prepared.start_eq small window, show pos + (d.m - d.B) = pos + d.m - d.B by omega]

/-- All patterns that stand at a place are among its candidates. -/
theorem Prepared.among_candidates (prepared : Prepared text pairs d) (small : text.l < 2 ^ 31)
    (window : pos ≤ text.l - d.m) {pair : List UInt8 × List UInt8} (member : pair ∈ pairs)
    (stands : pair.1 <+: text.content.drop pos) :
    ∃ c ∈ d.candidates (windowHash text d pos &&& hashMask).toNat, c.1.pat = pair.1 := by
  have listed := prepared.pattern member stands
  have bucket := prepared.in_bucket _ listed
  rw [prepared.suffixHash_eq small window listed stands] at bucket
  exact ⟨_, bucket, rfl⟩

/-- The scan at a place finds the longest key that stands there. -/
theorem Prepared.scan_candidates (prepared : Prepared text pairs d) (small : text.l < 2 ^ 31)
    (window : pos ≤ text.l - d.m) :
    let scanned := scan text pos (phpStrtrHash (text.window pos d.Bp))
      (d.candidates (windowHash text d pos &&& hashMask).toNat)
    (∀ range ∈ scanned.1, text.Inside range)
    ∧ match scanned.2 with
      | none => Free pairs text.content pos
      | some pnr => (pnr.pat, pnr.repl) ∈ pairs ∧ 0 < pnr.pat.length
          ∧ pnr.pat <+: text.content.drop pos
          ∧ ∀ pair ∈ pairs, pair.1 <+: text.content.drop pos →
            pair.1.length ≤ pnr.pat.length := by
  intro scanned
  have fits := prepared.fits
  have blockLe := prepared.block_le
  have blockPos := prepared.block_pos
  have prefixLe := prepared.prefix_le
  obtain ⟨insides, chosen⟩ := @scan_spec text pos (phpStrtrHash (text.window pos d.Bp))
    (d.candidates (windowHash text d pos &&& hashMask).toNat) small (by omega)
    (by
      intro c member stands
      obtain ⟨listed, hash⟩ := prepared.candidate _ c member
      rw [hash, prepared.blockHash_eq listed stands (by omega) (by omega), Nat.add_zero])
    (by
      refine (prepared.sorted _).imp_of_mem fun {a b} memberA memberB longer standsA standsB => ?_
      apply longer
      rw [prepared.suffixHash_eq small window (prepared.candidate _ a memberA).1 standsA,
        prepared.suffixHash_eq small window (prepared.candidate _ b memberB).1 standsB])
  refine ⟨insides, ?_⟩
  split
  · next none =>
    rw [none] at chosen
    intro pair member stands
    obtain ⟨c, candidate, equal⟩ := prepared.among_candidates small window member stands
    exact chosen c candidate (equal ▸ stands)
  · next pnr found =>
    rw [found] at chosen
    obtain ⟨⟨c, candidate, equal⟩, stands, longest⟩ := chosen
    have listed := (prepared.candidate _ c candidate).1
    rw [equal] at listed
    have shortest := prepared.shortest pnr listed
    refine ⟨prepared.listed pnr listed, by omega, stands, ?_⟩
    intro pair member standsPair
    obtain ⟨other, otherCandidate, same⟩ :=
      prepared.among_candidates small window member standsPair
    rw [← same] at standsPair ⊢
    exact longest other otherCandidate standsPair

/-! ## The search -/

theorem doReplLoop_spec (prepared : Prepared text pairs d) (small : text.l < 2 ^ 31)
    {fuel nextwpos : Nat} (enough : text.l < fuel + pos) (inside : pos ≤ text.l)
    (ordered : nextwpos ≤ pos)
    (free : ∀ place, nextwpos ≤ place → place < pos → Free pairs text.content place) :
    ∃ result reads, doReplLoop text d (text.l - d.m) fuel pos nextwpos = some (result, reads)
      ∧ Translated pairs (text.content.drop nextwpos) result
      ∧ ∀ range ∈ reads, text.Inside range := by
  induction fuel generalizing pos nextwpos with
  | zero => omega
  | succ fuel induction =>
      have fits := prepared.fits
      have blockLe := prepared.block_le
      have blockPos := prepared.block_pos
      have prefixLe := prepared.prefix_le
      have length := text.length_content
      rw [doReplLoop]
      by_cases window : pos ≤ text.l - d.m
      · have hashed : text.Inside (d.start pos, d.B) := by
          rw [prepared.start_eq small window]
          simp only [Text.Inside]
          omega
        rw [if_pos window]
        dsimp only
        by_cases moved : 0 < d.shift (windowHash text d pos).toNat
        · have shiftLe := prepared.shift_le (windowHash text d pos).toNat
          obtain ⟨result, reads, loop, translated, insides⟩ :=
            @induction (pos + d.shift (windowHash text d pos).toNat) nextwpos (by omega) (by omega)
              (by omega) (free_join free fun place lower upper =>
                prepared.free_of_shift small window lower upper)
          have next : sizeT (pos + d.shift (windowHash text d pos).toNat)
              = pos + d.shift (windowHash text d pos).toNat := sizeT_eq rfl (by omega)
          rw [if_pos moved, next, loop]
          exact ⟨_, _, rfl, translated, List.forall_mem_cons.mpr ⟨hashed, insides⟩⟩
        · have prefixed : text.Inside (pos, d.Bp) := by
            simp only [Text.Inside]
            omega
          obtain ⟨compared, spec⟩ := prepared.scan_candidates small window
          rw [if_neg moved]
          generalize scan text pos (phpStrtrHash (text.window pos d.Bp))
            (d.candidates (windowHash text d pos &&& hashMask).toNat) = scanned at compared spec ⊢
          have insideReads (reads : List Range) (insides : ∀ range ∈ reads, text.Inside range) :
              ∀ range ∈ (d.start pos, d.B) :: (pos, d.Bp) :: scanned.1 ++ reads,
                text.Inside range := by
            rw [List.cons_append, List.cons_append]
            refine List.forall_mem_cons.mpr ⟨hashed, List.forall_mem_cons.mpr ⟨prefixed, ?_⟩⟩
            exact List.forall_mem_append.mpr ⟨compared, insides⟩
          rcases scanned with ⟨reads, _ | pnr⟩
          · obtain ⟨result, later, loop, translated, insides⟩ :=
              @induction (pos + 1) nextwpos (by omega) (by omega) (by omega)
                (free_join free fun place lower upper => (show place = pos by omega) ▸ spec)
            have next : sizeT (pos + 1) = pos + 1 := sizeT_eq rfl (by omega)
            dsimp only
            rw [next, loop]
            exact ⟨_, _, rfl, translated, insideReads later insides⟩
          · obtain ⟨listed, positive, stands, longest⟩ := spec
            have lengths := stands.length_le
            rw [List.length_drop, length] at lengths
            obtain ⟨result, later, loop, translated, insides⟩ :=
              @induction (pos + pnr.pat.length) (pos + pnr.pat.length) (by omega) (by omega)
                (Nat.le_refl _) (fun place lower upper => absurd lower (by omega))
            have exchanged := translated.exchange_at listed stands longest
            have next : sizeT (pos + pnr.pat.length) = pos + pnr.pat.length :=
              sizeT_eq rfl (by omega)
            have copied : sizeT (pos - nextwpos) = pos - nextwpos := sizeT_eq (by omega) (by omega)
            dsimp only
            rw [next, copied, loop]
            refine ⟨_, _, rfl, ?_, insideReads later insides⟩
            rw [Text.window_eq (by omega)]
            exact exchanged.between ordered (by omega) free
      · have left : sizeT (text.l - nextwpos) = text.l - nextwpos := sizeT_eq (by omega) (by omega)
        rw [if_neg window, left]
        refine ⟨_, _, rfl, ?_, fun range member => absurd member (by simp)⟩
        rw [Text.window_eq (by omega), List.take_of_length_le (by rw [List.length_drop, length])]
        apply Translated.remainder (by omega)
        exact free_join free fun place lower upper => prepared.free_of_end (by omega)

end Search

/-! ## The preparation -/

section Preparation

variable {patterns sorted : List PatnRepl} {m B Bp : Nat}

theorem minLength_spec (patterns : List PatnRepl) (m : Nat) :
    let least := patterns.foldl
      (fun m pnr => if pnr.pat.length < m then pnr.pat.length else m) m
    least ≤ m ∧ (∀ pnr ∈ patterns, least ≤ pnr.pat.length)
      ∧ (least = m ∨ ∃ pnr ∈ patterns, least = pnr.pat.length) := by
  induction patterns generalizing m with
  | nil => simp
  | cons pnr patterns induction =>
      have smaller : (if pnr.pat.length < m then pnr.pat.length else m) = min pnr.pat.length m := by
        split <;> omega
      obtain ⟨le, all, reached⟩ := induction (min pnr.pat.length m)
      simp only [List.foldl_cons, smaller, List.forall_mem_cons, List.exists_mem_cons_iff]
      refine ⟨by omega, ⟨by omega, all⟩, ?_⟩
      rcases reached with same | other
      · omega
      · exact Or.inr (Or.inr other)

theorem phpStrtrCompareHashSuffix_nonpos {a b : PatnRepl} :
    phpStrtrCompareHashSuffix m B a b ≤ 0 ↔ suffixHash m B a < suffixHash m B b
      ∨ (suffixHash m B a = suffixHash m B b ∧ b.pat.length ≤ a.pat.length) := by
  simp only [phpStrtrCompareHashSuffix]
  split_ifs <;> omega

theorem phpStrtrCompareHashSuffix_preorder (m B : Nat) :
    TotalPreorder (phpStrtrCompareHashSuffix m B) := by
  constructor
  · intro a b
    simp only [phpStrtrCompareHashSuffix]
    split_ifs <;> omega
  · intro a b c ab bc
    rw [phpStrtrCompareHashSuffix_nonpos] at ab bc ⊢
    omega

theorem suffixHash_lt (m B : Nat) (pnr : PatnRepl) : suffixHash m B pnr < hashTabSize := by
  rw [suffixHash, UInt16.toNat_and]
  exact Nat.lt_succ_of_le Nat.and_le_right

/-- The buckets of the sorted patterns. -/
theorem candidates_spec (patterns : List PatnRepl) (Bp : Nat)
    (ordered : sorted.Pairwise fun a b => phpStrtrCompareHashSuffix m B a b ≤ 0) :
    let d := Ppres.of patterns sorted m B Bp
    (∀ pnr ∈ sorted, (pnr, blockHash pnr 0 Bp) ∈ d.candidates (suffixHash m B pnr))
    ∧ (∀ h, ∀ c ∈ d.candidates h, c.1 ∈ sorted ∧ c.2 = blockHash c.1 0 Bp)
    ∧ ∀ h, (d.candidates h).Pairwise fun a b =>
      suffixHash m B a.1 = suffixHash m B b.1 → b.1.pat.length ≤ a.1.pat.length := by
  have sortedBy : SortedBy (suffixHash m B) sorted := by
    refine ordered.imp fun le => ?_
    rw [phpStrtrCompareHashSuffix_nonpos] at le
    omega
  have small : ∀ pnr ∈ sorted, suffixHash m B pnr < hashTabSize :=
    fun pnr _ => suffixHash_lt m B pnr
  simp only [Ppres.candidates, Ppres.of, ← List.map_prod_left_eq_zip]
  refine ⟨?_, ?_, ?_⟩
  · intro pnr member
    obtain ⟨i, here⟩ := List.mem_iff_getElem?.mp member
    have place := sortedBy.place here
    have bound := suffixHash_lt m B pnr
    rw [hashEntries_eq sortedBy small (Nat.le_of_lt bound),
      hashEntries_eq sortedBy small (h := suffixHash m B pnr + 1) bound,
      Int.toNat_natCast, Int.toNat_natCast]
    refine List.mem_iff_getElem?.mpr ⟨i - below (suffixHash m B) sorted (suffixHash m B pnr), ?_⟩
    rw [List.getElem?_drop, List.getElem?_take, if_pos (by omega), List.getElem?_map,
      show below (suffixHash m B) sorted (suffixHash m B pnr)
        + (i - below (suffixHash m B) sorted (suffixHash m B pnr)) = i by omega, here]
    rfl
  · intro h c member
    obtain ⟨pnr, listed, equal⟩ :=
      List.mem_map.mp (List.mem_of_mem_take (List.mem_of_mem_drop member))
    subst equal
    exact ⟨listed, rfl⟩
  · intro h
    refine List.Pairwise.sublist ((List.drop_sublist _ _).trans (List.take_sublist _ _)) ?_
    refine List.pairwise_map.mpr (ordered.imp fun le same => ?_)
    rw [phpStrtrCompareHashSuffix_nonpos] at le
    dsimp only at same ⊢
    omega

theorem phpStrtrArrayPrepare_prepared {pairs : List (List UInt8 × List UInt8)}
    (few : patterns.length < 2 ^ 31) (some_ : patterns ≠ [])
    (lengths : ∀ pnr ∈ patterns, 0 < pnr.pat.length ∧ pnr.pat.length ≤ text.l)
    (listed : ∀ pnr ∈ patterns, (pnr.pat, pnr.repl) ∈ pairs)
    (covered : ∀ pair ∈ pairs, pair.1.length ≤ text.l → ⟨pair.1, pair.2⟩ ∈ patterns) :
    ∃ d, phpStrtrArrayPrepare patterns 2 2 = some d ∧ Prepared text pairs d := by
  obtain ⟨_, shortest, reached⟩ := minLength_spec patterns (2 ^ 64 - 1)
  change ∀ pnr ∈ patterns, minLength patterns ≤ _ at shortest
  change minLength patterns = _ ∨ ∃ pnr ∈ patterns, minLength patterns = _ at reached
  obtain ⟨pnr, member⟩ := List.exists_mem_of_ne_nil patterns some_
  have bound := shortest pnr member
  have fits := lengths pnr member
  have positive : 0 < minLength patterns := by
    rcases reached with huge | ⟨other, otherMember, equal⟩
    · omega
    · have nonempty := lengths other otherMember
      omega
  obtain ⟨sorted, sort, perm, ordered⟩ := @zendQsort_list _ _
    (phpStrtrCompareHashSuffix_preorder (minLength patterns) (min 2 (minLength patterns))) 32
    (by decide) patterns (by omega)
  obtain ⟨inBucket, candidate, order⟩ :=
    candidates_spec patterns (min 2 (minLength patterns)) ordered
  refine ⟨_, by rw [phpStrtrArrayPrepare, sort]; rfl, ?_⟩
  exact
    { block_pos := Nat.lt_min.mpr ⟨by decide, positive⟩
      block_le := Nat.min_le_right _ _
      prefix_le := Nat.min_le_right _ _
      fits := Nat.le_trans bound fits.2
      shortest := fun pnr member => shortest pnr (perm.mem_iff.mp member)
      shift_le := phpStrtrPopulateShift_le _ _ _
      shift_block := fun pnr member j inside =>
        phpStrtrPopulateShift_block (perm.mem_iff.mp member) inside
      in_bucket := inBucket
      candidate := candidate
      sorted := order
      listed := fun pnr member => listed pnr (perm.mem_iff.mp member)
      covered := fun pair member fits => perm.mem_iff.mpr (covered pair member fits) }

end Preparation

/-! ## Arrays of replacement pairs -/

/-- The pairs of an array as strings. -/
def pairTexts (pats : List (Key × List UInt8)) : List (List UInt8 × List UInt8) :=
  pats.map fun pair => (keyText pair.1, pair.2)

/-- The keys are strings that are not empty. -/
def KeysNonempty (pats : List (Key × List UInt8)) : Prop := ∀ pair ∈ pats, keyText pair.1 ≠ []

/-- Some key is not longer than the text. -/
def SomeKeyFits (text : Text) (pats : List (Key × List UInt8)) : Prop :=
  ∃ pair ∈ pats, (keyText pair.1).length ≤ text.l

variable {pats : List (Key × List UInt8)}

theorem phpStrtrArrayPrepareRepls_eq (slen : Nat) (nonempty : KeysNonempty pats) :
    phpStrtrArrayPrepareRepls slen pats
      = some ((pats.filter fun pair => (keyText pair.1).length ≤ slen).map fun pair =>
        ⟨keyText pair.1, pair.2⟩) := by
  induction pats with
  | nil => rfl
  | cons pair pats induction =>
      have later := induction fun other member => nonempty other (List.mem_cons_of_mem _ member)
      rw [phpStrtrArrayPrepareRepls, if_neg (nonempty pair List.mem_cons_self), later]
      by_cases long : slen < (keyText pair.1).length
      · rw [if_pos long, List.filter_cons_of_neg (by simpa using long)]
      · rw [if_neg long, List.filter_cons_of_pos (by simpa using long)]
        rfl

/-- If no key fits, the window is as long as a `size_t` can be: its end is hashed, and it is
moved past the end of the text. -/
theorem phpStrtrArrayDoRepl_empty (positive : 0 < text.l) (small : text.l < 2 ^ 31) :
    ∃ d, phpStrtrArrayPrepare [] 2 2 = some d
      ∧ phpStrtrArrayDoRepl text d = some (text.content, [(2 ^ 64 - 3, 2)]) := by
  obtain ⟨sorted, sort, perm, _⟩ := @zendQsort_list _ _
    (phpStrtrCompareHashSuffix_preorder (2 ^ 64 - 1) 2) 32 (by decide) [] (by decide)
  obtain rfl := perm.eq_nil
  refine ⟨Ppres.of [] [] (2 ^ 64 - 1) 2 2, ?_, ?_⟩
  · have shortest : minLength [] = 2 ^ 64 - 1 := rfl
    have block : min 2 (2 ^ 64 - 1) = 2 := by decide
    simp only [phpStrtrArrayPrepare, shortest, block, sort, Option.map_some]
  · have last : sizeT (text.l - ((2 ^ 64 - 1 : Nat) : Int)) = text.l + 1 := by
      simp only [sizeT]
      omega
    have start : (Ppres.of [] [] (2 ^ 64 - 1) 2 2).start 0 = 2 ^ 64 - 3 := by decide
    have moved : sizeT (((0 : Nat) : Int) + ((2 ^ 64 - 2 : Nat) : Int)) = 2 ^ 64 - 2 := by decide
    have whole : sizeT (text.l - ((0 : Nat) : Int)) = text.l := sizeT_eq (by omega) (by omega)
    obtain ⟨rounds, equal⟩ := Nat.exists_eq_succ_of_ne_zero (Nat.pos_iff_ne_zero.mp positive)
    change doReplLoop text _ (sizeT (text.l - ((2 ^ 64 - 1 : Nat) : Int))) (text.l + 1) 0 0 = _
    rw [last, doReplLoop, if_pos (Nat.zero_le _)]
    change (if 0 < 2 ^ 64 - 2 then Option.map (fun later => (later.1, (_, 2) :: later.2))
      (doReplLoop text _ (text.l + 1) text.l
        (sizeT (((0 : Nat) : Int) + ((2 ^ 64 - 2 : Nat) : Int))) 0) else _) = _
    rw [if_pos (by decide), moved, start]
    nth_rewrite 2 [equal]
    rw [doReplLoop, if_neg (by omega), whole]
    rfl

/-- The keys that fit are prepared, if there are any. -/
theorem SomeKeyFits.prepared (fits : SomeKeyFits text pats) (few : pats.length < 2 ^ 31)
    (nonempty : KeysNonempty pats) :
    ∃ d, phpStrtrArrayPrepare ((pats.filter fun pair => (keyText pair.1).length ≤ text.l).map
        fun pair => ⟨keyText pair.1, pair.2⟩) 2 2 = some d
      ∧ Prepared text (pairTexts pats) d := by
  apply phpStrtrArrayPrepare_prepared
  · rw [List.length_map]
    exact Nat.lt_of_le_of_lt (List.length_filter_le _ _) few
  · obtain ⟨pair, member, short⟩ := fits
    exact List.ne_nil_of_mem (List.mem_map_of_mem (List.mem_filter.mpr
      ⟨member, decide_eq_true short⟩))
  · intro pnr member
    obtain ⟨pair, listed, equal⟩ := List.mem_map.mp member
    obtain ⟨inPats, short⟩ := List.mem_filter.mp listed
    subst equal
    exact ⟨List.length_pos_iff.mpr (nonempty pair inPats), of_decide_eq_true short⟩
  · intro pnr member
    obtain ⟨pair, listed, equal⟩ := List.mem_map.mp member
    subst equal
    exact List.mem_map_of_mem (List.mem_filter.mp listed).1
  · intro pair member short
    obtain ⟨original, inPats, equal⟩ := List.mem_map.mp member
    subst equal
    exact List.mem_map_of_mem (List.mem_filter.mpr ⟨inPats, decide_eq_true short⟩)

theorem phpStrtrArray_spec (positive : 0 < text.l) (small : text.l < 2 ^ 31)
    (few : pats.length < 2 ^ 31) (nonempty : KeysNonempty pats) :
    ∃ result reads,
      phpStrtrArray text pats = .returned (.string result (int result.length), reads)
      ∧ Translated (pairTexts pats) text.content result
      ∧ (SomeKeyFits text pats → ∀ range ∈ reads, text.Inside range)
      ∧ (pats ≠ [] → ¬SomeKeyFits text pats → reads = [(2 ^ 64 - 3, 2)]) := by
  have count : int pats.length = pats.length := int_of_lt few
  have length := text.length_content
  simp only [phpStrtrArray, count]
  by_cases empty : pats = []
  · subst empty
    refine ⟨text.content, [], ?_, ?_, ?_, ?_⟩
    · rw [if_pos (Int.natCast_eq_zero.mpr List.length_nil), length, int_of_lt small]
    · exact .whole fun place _ pair member => absurd member (by simp [pairTexts])
    · exact fun _ range member => absurd member (by simp)
    · exact fun some_ => absurd rfl some_
  · have someLength := List.length_pos_iff.mpr empty
    rw [if_neg (by omega), if_neg (by omega), phpStrtrArrayPrepareRepls_eq text.l nonempty]
    dsimp only
    by_cases fits : SomeKeyFits text pats
    · obtain ⟨d, prepare, prepared⟩ := fits.prepared few nonempty
      have last : sizeT (text.l - d.m) = text.l - d.m := by
        have bound := prepared.fits
        exact sizeT_eq (by omega) (by omega)
      obtain ⟨result, reads, loop, translated, insides⟩ :=
        @doReplLoop_spec text (pairTexts pats) d 0 prepared small (text.l + 1) 0 (by omega)
          (Nat.zero_le _) (Nat.le_refl _) (fun place _ less => absurd less (Nat.not_lt_zero _))
      refine ⟨result, reads, ?_, by rwa [List.drop_zero] at translated, fun _ => insides,
        fun _ none => absurd fits none⟩
      rw [prepare, Option.bind_some, phpStrtrArrayDoRepl, last, loop]
      rfl
    · have none : (pats.filter fun pair => (keyText pair.1).length ≤ text.l) = [] := by
        rw [List.filter_eq_nil_iff]
        intro pair member short
        exact fits ⟨pair, member, of_decide_eq_true short⟩
      obtain ⟨d, prepare, replaced⟩ := phpStrtrArrayDoRepl_empty positive small
      refine ⟨text.content, [(2 ^ 64 - 3, 2)], ?_, ?_, fun exists_ => absurd exists_ fits,
        fun _ _ => rfl⟩
      · rw [none, List.map_nil, prepare, Option.bind_some, replaced]
        rfl
      · refine .whole fun place _ pair member stands => ?_
        obtain ⟨original, inPats, equal⟩ := List.mem_map.mp member
        have bound := stands.length_le
        rw [List.length_drop, length, ← equal] at bound
        exact fits ⟨original, inPats, by dsimp only at bound; omega⟩

/-- An `int` cannot hold the number of the pairs. -/
theorem phpStrtrArray_stopped (uint : pats.length < 2 ^ 32) (many : 2 ^ 31 ≤ pats.length) :
    phpStrtrArray text pats = .stopped := by
  rw [phpStrtrArray, int_of_ge many uint, if_neg (by omega), if_pos (by omega)]

/-- The text is translated by the longest keys; the length of the result is an `int`, and so is
the number of the pairs. -/
theorem phpStrtrArray_translates (positive : 0 < text.l) (small : text.l < 2 ^ 31)
    (uint : pats.length < 2 ^ 32) (nonempty : KeysNonempty pats) :
    (pats.length < 2 ^ 31 → ∃ result len reads,
      phpStrtrArray text pats = .returned (.string result len, reads)
        ∧ Translated (pairTexts pats) text.content result
        ∧ (len = result.length ↔ result.length < 2 ^ 31))
    ∧ (2 ^ 31 ≤ pats.length → phpStrtrArray text pats = .stopped) := by
  refine ⟨fun few => ?_, phpStrtrArray_stopped uint⟩
  obtain ⟨result, reads, returned, translated, _⟩ :=
    phpStrtrArray_spec positive small few nonempty
  refine ⟨result, int result.length, reads, returned, translated, ?_, fun fits => int_of_lt fits⟩
  intro equal
  have spec := int_spec result.length
  omega

/-- `hi all` with the keys `hi`, `h` and `hi a`, and a key that is longer than the text -/
theorem phpStrtrArray_translates_longest :
    let text : Text := ⟨fun i => ("hi all".toList.map byte).getD i 0, 6⟩
    let pats := [(Key.string ("hi".toList.map byte), "x".toList.map byte),
      (Key.string ("h".toList.map byte), "y".toList.map byte),
      (Key.string ("hi a".toList.map byte), "z".toList.map byte),
      (Key.long 1234567, [])]
    ∃ result len reads, phpStrtrArray text pats = .returned (.string result len, reads)
      ∧ Translated (pairTexts pats) text.content result
      ∧ (len = result.length ↔ result.length < 2 ^ 31) :=
  (phpStrtrArray_translates (by decide) (by decide) (by decide) (forall_of_all (by decide))).1
    (by decide)

/-- A text of one byte over and over, which is the only key. -/
theorem length_of_translated_replicate {c : UInt8} {value text result : List UInt8} {n : Nat}
    (same : text = List.replicate n c) (translated : Translated [([c], value)] text result) :
    result.length = n * value.length := by
  induction translated generalizing n with
  | nil =>
      have zero := congrArg List.length same
      rw [List.length_nil, List.length_replicate] at zero
      rw [← zero, Nat.zero_mul, List.length_nil]
  | exchange listed _ _ induction =>
      obtain ⟨rfl, rfl⟩ := Prod.mk.inj (List.mem_singleton.mp listed)
      cases n with
      | zero => contradiction
      | succ n =>
          rw [List.replicate_succ, List.singleton_append, List.cons.injEq] at same
          rw [List.length_append, induction same.2, Nat.succ_mul, Nat.add_comm]
  | copy none _ _ =>
      cases n with
      | zero => contradiction
      | succ n =>
          rw [List.replicate_succ, List.cons.injEq] at same
          rw [same.1] at none
          exact absurd (List.prefix_append [c] _) (none _ List.mem_cons_self)

theorem phpStrtrArray_replicate {n : Nat} (positive : 0 < n) (small : n < 2 ^ 31) (c : UInt8)
    (value : List UInt8) :
    ∃ result reads, phpStrtrArray ⟨fun _ => c, n⟩ [(.string [c], value)]
        = .returned (.string result (int result.length), reads)
      ∧ Translated [([c], value)] (List.replicate n c) result
      ∧ result.length = n * value.length := by
  obtain ⟨result, reads, returned, translated, _⟩ :=
    @phpStrtrArray_spec ⟨fun _ => c, n⟩ [(.string [c], value)] positive small (by simp)
      (fun pair member => by
        rw [List.mem_singleton.mp member]
        exact List.cons_ne_nil _ _)
  have content : (Text.mk (fun _ => c) n).content = List.replicate n c := by
    simp [Text.content, Text.window]
  rw [content] at translated
  exact ⟨result, reads, returned, translated, length_of_translated_replicate rfl translated⟩

/-- `2 ^ 16` bytes, each of them exchanged for `2 ^ 16`: the string that is returned is empty. -/
theorem phpStrtrArray_cuts_length :
    ∃ result reads,
      phpStrtrArray ⟨fun _ => byte 'a', 2 ^ 16⟩
          [(.string [byte 'a'], List.replicate (2 ^ 16) (byte 'b'))]
        = .returned (.string result 0, reads)
      ∧ Translated [([byte 'a'], List.replicate (2 ^ 16) (byte 'b'))]
        (List.replicate (2 ^ 16) (byte 'a')) result
      ∧ result.length = 2 ^ 32 := by
  obtain ⟨result, reads, returned, translated, length⟩ := @phpStrtrArray_replicate (2 ^ 16)
    (by decide) (by decide) (byte 'a') (List.replicate (2 ^ 16) (byte 'b'))
  rw [List.length_replicate] at length
  have large : result.length = 2 ^ 32 := length
  have cut : int result.length = 0 := by
    rw [large]
    decide
  rw [cut] at returned
  exact ⟨result, reads, returned, translated, large⟩

/-- The search stays in the text exactly if some key is not longer than the text; without memory
for the patterns there is no search. -/
theorem phpStrtrArray_inside_iff (positive : 0 < text.l) (small : text.l < 2 ^ 31)
    (uint : pats.length < 2 ^ 32) (some_ : pats ≠ []) (nonempty : KeysNonempty pats) :
    (pats.length < 2 ^ 31 → ∃ value reads, phpStrtrArray text pats = .returned (value, reads))
    ∧ ∀ value reads, phpStrtrArray text pats = .returned (value, reads) →
      ((∀ range ∈ reads, ∀ i < range.2, (range.1 + i) % 2 ^ 64 < text.l)
        ↔ SomeKeyFits text pats) := by
  by_cases few : pats.length < 2 ^ 31
  · obtain ⟨result, reads, returned, _, insides, outside⟩ :=
      phpStrtrArray_spec positive small few nonempty
    refine ⟨fun _ => ⟨_, reads, returned⟩, fun value reads' equal => ?_⟩
    obtain ⟨rfl, rfl⟩ := Prod.mk.inj (Outcome.returned.inj (returned.symm.trans equal))
    constructor
    · intro inText
      by_contra none
      have first := inText (2 ^ 64 - 3, 2) (by rw [outside some_ none]; exact List.mem_cons_self) 0
        (by decide)
      dsimp only at first
      omega
    · intro fits range member i less
      have inside := insides fits range member
      rw [Text.Inside] at inside
      omega
  · refine ⟨fun few' => absurd few' few, fun value reads equal => ?_⟩
    rw [phpStrtrArray_stopped uint (Nat.le_of_not_lt few)] at equal
    cases equal

/-- The text `aba` with the keys `a`, `ab` and one that is longer than the text -/
theorem phpStrtrArray_inside_iff_several :
    let text : Text := ⟨fun i => ("aba".toList.map byte).getD i 0, 3⟩
    let pats := [(Key.string [byte 'a'], [byte 'b']), (.string ("ab".toList.map byte), []),
      (.long 12345, [byte 'c'])]
    (pats.length < 2 ^ 31 → ∃ value reads, phpStrtrArray text pats = .returned (value, reads))
    ∧ ∀ value reads, phpStrtrArray text pats = .returned (value, reads) →
      ((∀ range ∈ reads, ∀ i < range.2, (range.1 + i) % 2 ^ 64 < text.l)
        ↔ SomeKeyFits text pats) :=
  phpStrtrArray_inside_iff (by decide) (by decide) (by decide) (by decide)
    (forall_of_all (by decide))

/-- The text `a` and the key `bb`: the two bytes that end one byte in front of the text are
hashed. -/
theorem phpStrtrArray_long_key :
    ∃ value, phpStrtrArray ⟨fun _ => byte 'a', 1⟩ [(.string [byte 'b', byte 'b'], [])]
        = .returned (value, [(2 ^ 64 - 3, 2)]) ∧ ¬2 ^ 64 - 3 < 1 := by
  obtain ⟨result, reads, returned, _, _, outside⟩ :=
    @phpStrtrArray_spec ⟨fun _ => byte 'a', 1⟩ [(.string [byte 'b', byte 'b'], [])] (by decide)
      (by decide) (by decide) (forall_of_all (by decide))
  have none : ¬SomeKeyFits ⟨fun _ => byte 'a', 1⟩ [(.string [byte 'b', byte 'b'], [])] := by
    rintro ⟨pair, member, short⟩
    rw [List.mem_singleton.mp member] at short
    exact absurd short (by decide)
  rw [outside (by decide) none] at returned
  exact ⟨_, returned, by decide⟩

end PhpRuntime.Standard
