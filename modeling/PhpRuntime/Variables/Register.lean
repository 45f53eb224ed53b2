import PhpRuntime.Foundation.CString
import PhpRuntime.Hash.Table
import PhpRuntime.Values.Value

/-! # Registering input variables

`php_register_variable_ex` of `main/php_variables.c`. The name is a C string; spaces and dots
become underscores up to the first opening bracket, and the brackets from there on give the
keys of nested arrays. An opening bracket that no closing one follows is found out only then,
and becomes an underscore as well.
-/

namespace PhpRuntime.Variables

open Decimal CString Values

/-! ## Arrays -/

/-- The hash table of an array. -/
structure Table (β : Type) where
  entries : List (Key × β)
  nNextFreeElement : BitVec 64

inductive Zval (α : Type)
  | scalar (value : α)
  | array (table : Table (Zval α))

namespace Table

variable {β : Type}

def empty : Table β := ⟨[], 0⟩

/-- `zend_symtable_find` -/
def find (table : Table β) (index : List UInt8) : Option β :=
  table.entries.lookup (symtableKey index)

def store (table : Table β) (key : Key) (data : β) : Table β where
  entries := put table.entries key data
  nNextFreeElement :=
    match key with
    | .long h => Hash.HashTable.nextFreeAfter table.nNextFreeElement h
    | .string _ => table.nNextFreeElement

/-- `zend_symtable_update` -/
def update (table : Table β) (index : List UInt8) (data : β) : Table β :=
  table.store (symtableKey index) data

/-- `zend_symtable_del` -/
def del (table : Table β) (index : List UInt8) : Table β :=
  { table with entries := table.entries.filter fun entry => entry.1 ≠ symtableKey index }

/-- `zend_hash_next_index_insert`, with the key that was used -/
def nextIndexInsert (table : Table β) (data : β) : Option (Table β × Key) :=
  let key := .long table.nNextFreeElement
  if (table.entries.lookup key).isSome then none else some (table.store key data, key)

end Table

/-! ## The function -/

/-- What the function reads besides its arguments. -/
structure Globals where
  /-- `symtable1 == EG(active_symbol_table)` -/
  isActive : Bool
  /-- `symtable1` is the table of `PG(http_globals)[TRACK_VARS_COOKIE]`. -/
  isCookies : Bool
  maxInputNestingLevel : Int
  displayErrors : Bool

section Function

variable {α : Type}

/-- The label `plain_var`. An old cookie is kept. -/
def plainVar (keepsOld : Bool) (symtable1 : Table (Zval α)) (index : Option (List UInt8))
    (val : α) : Table (Zval α) :=
  match index with
  | none =>
      match symtable1.nextIndexInsert (.scalar val) with
      | some (symtable1, _) => symtable1
      | none => symtable1
  | some index =>
      if keepsOld && (symtable1.find index).isSome then symtable1
      else symtable1.update index (.scalar val)

/-- The next key, which `[]` leaves out, and the text behind its closing bracket. The key begins
in front of the space that is skipped. -/
def nextIndex (text : List UInt8) : Option (Option (List UInt8) × List UInt8) :=
  let skipped := if isSpace (read text 0) then 1 else 0
  let ip := text.drop skipped
  if read ip 0 = byte ']' then
    some (none, ip.drop 1)
  else
    match ip.idxOf? (byte ']') with
    | some close => some (some (text.take (skipped + close)), ip.drop (close + 1))
    | none => none

/-- The array at a key of `symtable1`, made if there is none. -/
def openArray (symtable1 : Table (Zval α)) (index : Option (List UInt8)) :
    Option (Table (Zval α) × Key × Table (Zval α)) :=
  match index with
  | none =>
      (symtable1.nextIndexInsert (.array .empty)).map fun (symtable1, key) =>
        (symtable1, key, .empty)
  | some index =>
      match symtable1.find index with
      | some (.array inner) => some (symtable1, symtableKey index, inner)
      | _ => some (symtable1.update index (.array .empty), symtableKey index, .empty)

/-- The loop, with the nesting levels that are left. `text` is behind an opening bracket, and
`joined` is the key that is used if nothing closes the bracket. The second component tells
whether there are too many levels. -/
def nest (val : α) : Nat → Bool → Table (Zval α) → Option (List UInt8) → Option (List UInt8) →
    List UInt8 → Table (Zval α) × Bool
  | 0, _, symtable1, _, _, _ => (symtable1, true)
  | levels + 1, keepsOld, symtable1, index, joined, text =>
      match nextIndex text with
      | none => (plainVar keepsOld symtable1 joined val, false)
      | some (next, rest) =>
          match openArray symtable1 index with
          | none => (symtable1, false)
          | some (symtable1, key, inner) =>
              let (inner, tooDeep) :=
                if read rest 0 = byte '[' then nest val levels false inner next next (rest.drop 1)
                else (plainVar false inner next val, false)
              ({ symtable1 with entries := put symtable1.entries key (.array inner) }, tooDeep)

def globalsName : List UInt8 := "GLOBALS".toList.map byte

/-- The warning is not shown on the screen, to avoid a disclosure of information. -/
def nestingWarning (globals : Globals) : Option String :=
  if globals.displayErrors then none
  else
    some ("Input variable nesting level exceeded " ++ toString globals.maxInputNestingLevel ++
      ". To increase the limit change max_input_nesting_level in php.ini.")

/-- The name without leading spaces. -/
def trimmed (varName : List UInt8) : List UInt8 :=
  (cString varName).dropWhile (· == byte ' ')

def replaced (c : UInt8) : UInt8 := if c = byte ' ' ∨ c = byte '.' then byte '_' else c

/-- `php_register_variable_ex`, with the warning that it raises. A nested array does not lose
what it has got before the levels run out, but the variable is deleted then. -/
def phpRegisterVariableEx (globals : Globals) (varName : List UInt8) (val : α)
    (symtable1 : Table (Zval α)) : Table (Zval α) × Option String :=
  let name := trimmed varName
  let var := (name.takeWhile (· != byte '[')).map replaced
  if var.isEmpty then
    (symtable1, none)
  else if globals.isActive && var == globalsName then
    (symtable1, none)
  else
    match name.dropWhile (· != byte '[') with
    | [] => (plainVar globals.isCookies symtable1 (some var) val, none)
    | _ :: text =>
        let (symtable1, tooDeep) :=
          nest val globals.maxInputNestingLevel.toNat globals.isCookies symtable1 (some var)
            (some (var ++ byte '_' :: text)) text
        if tooDeep then
          (symtable1.del var, nestingWarning globals)
        else
          (symtable1, none)

end Function

/-! ## Keys of the table -/

/-- A byte that a name must not keep. -/
def isSpecial (c : UInt8) : Bool := c == byte ' ' || c == byte '.' || c == byte '['

def Sanitised : Key → Prop
  | .long _ => True
  | .string bytes => ∀ c ∈ bytes, isSpecial c = false

/-- An opening bracket behind the name, no closing one, and a special byte behind the bracket;
the name is stored at all. -/
def LeavesSpecial (globals : Globals) (varName : List UInt8) : Prop :=
  ∃ name text, trimmed varName = name ++ byte '[' :: text ∧ byte '[' ∉ name ∧ name ≠ [] ∧
    byte ']' ∉ text ∧ (∃ c ∈ text, isSpecial c = true) ∧ 1 ≤ globals.maxInputNestingLevel ∧
    ¬ (globals.isActive = true ∧ name.map replaced = globalsName)

section Lookup

variable {β : Type} {table : Table β} {key other : Key} {index : List UInt8}

theorem lookup_store (table : Table β) (key other : Key) (data : β) :
    (table.store key data).entries.lookup other =
      if other = key then some data else table.entries.lookup other :=
  lookup_put table.entries key other data

theorem lookup_del (different : other ≠ symtableKey index) :
    (table.del index).entries.lookup other = table.entries.lookup other := by
  rw [Table.del]
  simp only
  induction table.entries with
  | nil => rfl
  | cons entry rest induction =>
      rcases entry with ⟨first, data⟩
      by_cases isFirst : other = first
      · subst isFirst
        simp [different]
      · by_cases removed : first = symtableKey index
        · simpa [List.lookup_cons, removed, beq_eq_false_iff_ne.mpr different] using induction
        · simpa [List.lookup_cons, removed, beq_eq_false_iff_ne.mpr isFirst] using induction

theorem symtableKey_sanitised (clean : ∀ c ∈ index, isSpecial c = false) :
    Sanitised (symtableKey index) := by
  rw [symtableKey]
  split
  · trivial
  · exact clean

/-- An underscore is not part of a number. -/
theorem symtableKey_underscore (underscore : byte '_' ∈ index) :
    symtableKey index = .string index := by
  have notNumeric (digits : List UInt8) (member : byte '_' ∈ digits) :
      numericIdx index digits = none := by
    have notDigits : digits.all isDigit = false := by
      rw [List.all_eq_false]
      exact ⟨_, member, by decide⟩
    simp [numericIdx, notDigits]
  have notLong : zendHandleNumeric index = none := by
    rw [zendHandleNumeric]
    split_ifs with negative
    · rcases List.head?_eq_some_iff.mp negative with ⟨rest, rfl⟩
      have behind : byte '_' ∈ rest := by
        cases underscore with
        | tail _ member => exact member
      rw [List.tail_cons, notNumeric rest behind]
      rfl
    · rw [notNumeric index underscore]
      rfl
  rw [symtableKey, notLong]

end Lookup

/-! ## One level -/

theorem nextIndex_eq_none_iff {text : List UInt8} : nextIndex text = none ↔ byte ']' ∉ text := by
  have skipping : byte ']' ∈ text.drop (if isSpace (read text 0) then 1 else 0) ↔
      byte ']' ∈ text := by
    split_ifs with space
    · cases text with
      | nil => rfl
      | cons first rest =>
          have different : byte ']' ≠ first := by
            intro equal
            rw [← equal] at space
            change isSpace (byte ']') = true at space
            exact absurd space (by decide)
          rw [List.drop_succ_cons, List.drop_zero, List.mem_cons, or_iff_right different]
    · rfl
  rw [← skipping, nextIndex]
  generalize text.drop (if isSpace (read text 0) then 1 else 0) = ip
  cases ip with
  | nil => simp [CString.read, show (0 : UInt8) ≠ byte ']' by decide]
  | cons first rest =>
      by_cases closes : first = byte ']'
      · simp [CString.read, closes]
      · have other : read (first :: rest) 0 ≠ byte ']' := closes
        simp only [if_neg other]
        cases found : (first :: rest).idxOf? (byte ']') with
        | none => simpa using List.idxOf?_eq_none_iff.mp found
        | some close =>
            have present : ¬ byte ']' ∉ first :: rest := by
              intro absent
              rw [List.idxOf?_eq_none_iff.mpr absent] at found
              cases found
            simpa using present

section Changes

variable {α : Type} {val : α} {symtable1 : Table (Zval α)} {keepsOld : Bool}
  {index joined : List UInt8} {other : Key}

theorem lookup_plainVar (different : other ≠ symtableKey index) :
    (plainVar keepsOld symtable1 (some index) val).entries.lookup other =
      symtable1.entries.lookup other := by
  rw [plainVar]
  split_ifs
  · rfl
  · rw [Table.update, lookup_store, if_neg different]

theorem openArray_some {opened inner : Table (Zval α)} {key : Key}
    (isOpen : openArray symtable1 (some index) = some (opened, key, inner)) :
    key = symtableKey index ∧ ∀ other, other ≠ key →
      opened.entries.lookup other = symtable1.entries.lookup other := by
  rw [openArray] at isOpen
  split at isOpen
  · cases isOpen
    exact ⟨rfl, fun _ _ => rfl⟩
  · cases isOpen
    exact ⟨rfl, fun other different => by rw [Table.update, lookup_store, if_neg different]⟩

/-- Nothing but the variable changes, or the key that an unclosed bracket gives. -/
theorem lookup_nest {levels : Nat} {text : List UInt8} (different : other ≠ symtableKey index)
    (unclosed : byte ']' ∉ text → 1 ≤ levels → other ≠ symtableKey joined) :
    (nest val levels keepsOld symtable1 (some index) (some joined) text).1.entries.lookup other =
      symtable1.entries.lookup other := by
  cases levels with
  | zero => rfl
  | succ levels =>
      rw [nest]
      cases next : nextIndex text with
      | none =>
          exact lookup_plainVar (unclosed (nextIndex_eq_none_iff.mp next) (Nat.succ_pos _))
      | some result =>
          rcases result with ⟨next, rest⟩
          simp only
          cases isOpen : openArray symtable1 (some index) with
          | none => rfl
          | some result =>
              rcases result with ⟨opened, key, inner⟩
              have opens := openArray_some isOpen
              rw [← opens.1] at different
              simp only
              rw [lookup_put, if_neg different, opens.2 other different]

end Changes

/-! ## The whole name -/

theorem replaced_not_special {c : UInt8} (notBracket : c ≠ byte '[') :
    isSpecial (replaced c) = false := by
  rw [replaced]
  split_ifs with special
  · decide
  · rw [not_or] at special
    simp [isSpecial, special, notBracket]

theorem notMem_takeWhile (name : List UInt8) : byte '[' ∉ name.takeWhile (· != byte '[') := by
  intro member
  exact absurd (List.mem_takeWhile_imp member) (by decide)

theorem var_clean {name : List UInt8} (noBracket : byte '[' ∉ name) :
    ∀ c ∈ name.map replaced, isSpecial c = false := by
  intro c member
  rcases List.mem_map.mp member with ⟨b, isByte, rfl⟩
  exact replaced_not_special fun equal => noBracket (equal ▸ isByte)

/-- The first opening bracket of a name. -/
theorem bracket_cases (name : List UInt8) :
    name.dropWhile (· != byte '[') = [] ∨
      ∃ text, name.dropWhile (· != byte '[') = byte '[' :: text ∧
        name = name.takeWhile (· != byte '[') ++ byte '[' :: text := by
  cases rest : name.dropWhile (· != byte '[') with
  | nil => exact Or.inl rfl
  | cons c text =>
      have isBracket : c = byte '[' := by
        have stopped := List.head?_dropWhile_not (· != byte '[') name
        rw [rest] at stopped
        simpa using stopped
      rw [isBracket] at rest
      refine Or.inr ⟨text, by rw [isBracket], ?_⟩
      rw [← rest, List.takeWhile_append_dropWhile]

theorem takeWhile_bracket {name text : List UInt8} (noBracket : byte '[' ∉ name) :
    (name ++ byte '[' :: text).takeWhile (· != byte '[') = name ∧
      (name ++ byte '[' :: text).dropWhile (· != byte '[') = byte '[' :: text := by
  have pass : ∀ c ∈ name, (c != byte '[') = true := by
    intro c member
    rw [bne_iff_ne]
    rintro rfl
    exact noBracket member
  rw [List.takeWhile_append_of_pos pass, List.dropWhile_append_of_pos pass]
  simp

/-- The key that an unclosed bracket gives is stored. -/
theorem lookup_register_unclosed {α : Type} {globals : Globals} {varName name text : List UInt8}
    (val : α) (split : trimmed varName = name ++ byte '[' :: text) (noBracket : byte '[' ∉ name)
    (nonempty : name ≠ []) (unclosed : byte ']' ∉ text)
    (levels : 1 ≤ globals.maxInputNestingLevel)
    (notGlobals : ¬ (globals.isActive = true ∧ name.map replaced = globalsName)) :
    ((phpRegisterVariableEx globals varName val .empty).1.entries.lookup
      (symtableKey (name.map replaced ++ byte '_' :: text))).isSome := by
  have cut := @takeWhile_bracket name text noBracket
  rcases Int.eq_succ_of_zero_lt levels with ⟨more, isLevel⟩
  have isNest : globals.maxInputNestingLevel.toNat = more + 1 := by
    rw [isLevel]
    rfl
  rw [phpRegisterVariableEx, split, cut.1, cut.2]
  simp only
  rw [if_neg (by simpa using nonempty), if_neg (by simpa using notGlobals), isNest, nest,
    nextIndex_eq_none_iff.mpr unclosed]
  simp only [plainVar, Table.find, Table.empty, List.lookup_nil, Option.isSome_none,
    Bool.and_false, Bool.false_eq_true, if_false, Table.update]
  rw [lookup_store, if_pos rfl]
  rfl

/-- A top-level key that the function changes has no special byte, whatever is stored where,
unless the name has an opening bracket without a closing one and a special byte behind it. -/
theorem register_sanitised_iff {α : Type} (globals : Globals) (varName : List UInt8) (val : α) :
    (∀ symtable1 key,
      (phpRegisterVariableEx globals varName val symtable1).1.entries.lookup key ≠
        symtable1.entries.lookup key → Sanitised key) ↔
      ¬ LeavesSpecial globals varName := by
  constructor
  · rintro sanitised
      ⟨name, text, split, noBracket, nonempty, unclosed, ⟨c, member, special⟩, levels, notGlobals⟩
    have stored := lookup_register_unclosed val split noBracket nonempty unclosed levels notGlobals
    have clean := sanitised .empty (symtableKey (name.map replaced ++ byte '_' :: text)) fun same =>
      by
        rw [same] at stored
        cases stored
    rw [symtableKey_underscore (by simp)] at clean
    rw [clean c (by simp [member])] at special
    cases special
  · intro notLeaves symtable1 key changed
    by_contra special
    apply changed
    have notVar : key ≠ symtableKey (((trimmed varName).takeWhile (· != byte '[')).map replaced) :=
      fun equal => special (equal ▸ symtableKey_sanitised (var_clean (notMem_takeWhile _)))
    rw [phpRegisterVariableEx]
    simp only
    split_ifs with isEmpty isGlobals
    · rfl
    · rfl
    · rcases bracket_cases (trimmed varName) with plain | ⟨text, isText, split⟩
      · rw [plain]
        exact lookup_plainVar notVar
      · have unclosed : byte ']' ∉ text → 1 ≤ globals.maxInputNestingLevel.toNat →
            key ≠ symtableKey (((trimmed varName).takeWhile (· != byte '[')).map replaced ++
              byte '_' :: text) := by
          intro noClose levels equal
          apply special
          rw [equal]
          apply symtableKey_sanitised
          intro c member
          rw [List.mem_append, List.mem_cons] at member
          rcases member with inVar | rfl | inText
          · exact var_clean (notMem_takeWhile _) c inVar
          · decide
          · rw [Bool.eq_false_iff]
            intro isSpecial
            exact notLeaves ⟨_, text, split, notMem_takeWhile _, by simpa using isEmpty, noClose,
              ⟨c, inText, isSpecial⟩, by omega, by simpa using isGlobals⟩
        rw [isText]
        simp only
        split_ifs
        · rw [lookup_del notVar, lookup_nest notVar unclosed]
        · exact lookup_nest notVar unclosed

/-- `a[b.c` is stored under `a_b.c`. -/
theorem register_unclosed_dot :
    ¬ ∀ symtable1 key,
      (phpRegisterVariableEx ⟨false, false, 64, true⟩ ("a[b.c".toList.map byte) ()
        symtable1).1.entries.lookup key ≠ symtable1.entries.lookup key → Sanitised key := by
  intro sanitised
  have stored : ((phpRegisterVariableEx ⟨false, false, 64, true⟩ ("a[b.c".toList.map byte) ()
      .empty).1.entries.lookup (.string ("a_b.c".toList.map byte))).isSome := by decide
  have clean := sanitised .empty (.string ("a_b.c".toList.map byte)) fun same => by
    rw [same] at stored
    cases stored
  exact absurd (clean (byte '.') (by decide)) (by decide)

end PhpRuntime.Variables
