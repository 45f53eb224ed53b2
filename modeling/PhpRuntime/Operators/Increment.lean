import PhpRuntime.Foundation.Decimal
import Mathlib.Data.Prod.Lex

/-! # Incrementing strings

`increment_string` of `Zend/zend_operators.c`. The loop runs from the last byte to the first
one, so it is a recursion on the reversed text. An alphanumeric text is read as a number whose
places have the radix of their class.
-/

namespace PhpRuntime.Operators

open Decimal

/-- The constants `LOWER_CASE`, `UPPER_CASE` and `NUMERIC`. -/
inductive CharClass
  | lowerCase
  | upperCase
  | numeric
  deriving DecidableEq

namespace CharClass

def first : CharClass → UInt8
  | lowerCase => byte 'a'
  | upperCase => byte 'A'
  | numeric => byte '0'

def last : CharClass → UInt8
  | lowerCase => byte 'z'
  | upperCase => byte 'Z'
  | numeric => byte '9'

/-- The byte that a carry puts in front of the text. -/
def extension : CharClass → UInt8
  | lowerCase => byte 'a'
  | upperCase => byte 'A'
  | numeric => byte '1'

def radix : CharClass → Nat
  | lowerCase => 26
  | upperCase => 26
  | numeric => 10

end CharClass

def classOf (ch : UInt8) : Option CharClass :=
  if byte 'a' ≤ ch ∧ ch ≤ byte 'z' then some .lowerCase
  else if byte 'A' ≤ ch ∧ ch ≤ byte 'Z' then some .upperCase
  else if byte '0' ≤ ch ∧ ch ≤ byte '9' then some .numeric
  else none

/-- The loop on the reversed text; a carry comes with the class of the byte it left. -/
def incrementLoop (carry : Option CharClass) : List UInt8 → List UInt8 × Option CharClass
  | [] => ([], carry)
  | ch :: rest =>
      match classOf ch with
      | none => (ch :: rest, none)
      | some last =>
          if ch = last.last then
            let loop := incrementLoop (some last) rest
            (last.first :: loop.1, loop.2)
          else
            ((ch + 1) :: rest, none)

/-- `increment_string` -/
def incrementString (str : List UInt8) : List UInt8 :=
  if str = [] then
    [byte '1']
  else
    let loop := incrementLoop none str.reverse
    match loop.2 with
    | none => loop.1.reverse
    | some last => last.extension :: loop.1.reverse

/-! ## Texts as numbers -/

/-- A text of letters and digits. -/
def Alnum (text : List UInt8) : Prop := ∀ ch ∈ text, (classOf ch).isSome

/-- The value of a byte in its class. -/
def offset (ch : UInt8) : Nat := (classOf ch).elim 0 fun c => ch.toNat - c.first.toNat

def radix (ch : UInt8) : Nat := (classOf ch).elim 1 CharClass.radix

/-- The number of a text, from its last byte on. -/
def rankFrom : List UInt8 → Nat
  | [] => 0
  | ch :: rest => offset ch + radix ch * rankFrom rest

/-- How many texts have these classes. -/
def capacity (text : List UInt8) : Nat := (text.map radix).prod

/-- The number that a text is in the radices of its classes. -/
def rank (text : List UInt8) : Nat := rankFrom text.reverse

theorem classOf_iff {ch : UInt8} {c : CharClass} :
    classOf ch = some c ↔
      c.first.toNat ≤ ch.toNat ∧ ch.toNat < c.first.toNat + c.radix := by
  unfold classOf
  simp only [UInt8.le_iff_toNat_le]
  change (if 97 ≤ ch.toNat ∧ ch.toNat ≤ 122 then _ else if 65 ≤ ch.toNat ∧ ch.toNat ≤ 90 then _
    else if 48 ≤ ch.toNat ∧ ch.toNat ≤ 57 then _ else _) = _ ↔ _
  cases c with
  | lowerCase =>
      change _ ↔ 97 ≤ ch.toNat ∧ ch.toNat < 123
      grind
  | upperCase =>
      change _ ↔ 65 ≤ ch.toNat ∧ ch.toNat < 91
      grind
  | numeric =>
      change _ ↔ 48 ≤ ch.toNat ∧ ch.toNat < 58
      grind

theorem toNat_last (c : CharClass) : c.last.toNat + 1 = c.first.toNat + c.radix := by
  cases c <;> rfl

theorem classOf_first (c : CharClass) : classOf c.first = some c := by cases c <;> decide

theorem classOf_extension (c : CharClass) : classOf c.extension = some c := by cases c <;> decide

theorem offset_first (c : CharClass) : offset c.first = 0 := by cases c <;> decide

variable {ch : UInt8} {c : CharClass} {text other : List UInt8}

theorem toNat_eq_offset (isClass : classOf ch = some c) :
    ch.toNat = c.first.toNat + offset ch := by
  have bounds := classOf_iff.mp isClass
  rw [offset, isClass, Option.elim_some]
  omega

theorem radix_eq (isClass : classOf ch = some c) : radix ch = c.radix := by
  rw [radix, isClass, Option.elim_some]

theorem offset_lt (isClass : classOf ch = some c) : offset ch < radix ch := by
  have bounds := classOf_iff.mp isClass
  have value := toNat_eq_offset isClass
  rw [radix_eq isClass]
  omega

theorem Alnum.tail (alnum : Alnum (ch :: text)) : Alnum text :=
  fun d member => alnum d (List.mem_cons_of_mem ch member)

theorem Alnum.head (alnum : Alnum (ch :: text)) : ∃ c, classOf ch = some c :=
  Option.isSome_iff_exists.mp (alnum ch List.mem_cons_self)

theorem alnum_reverse : Alnum text.reverse ↔ Alnum text := by
  simp only [Alnum, List.mem_reverse]

theorem Alnum.of_classes (alnum : Alnum text) (same : other.map classOf = text.map classOf) :
    Alnum other := by
  intro d member
  have image : classOf d ∈ text.map classOf := by
    rw [← same]
    exact List.mem_map_of_mem member
  obtain ⟨e, inText, equal⟩ := List.mem_map.mp image
  rw [← equal]
  exact alnum e inText

theorem radix_of_classes {d : UInt8} (same : classOf ch = classOf d) : radix ch = radix d := by
  rw [radix, radix, same]

theorem capacity_of_classes (same : other.map classOf = text.map classOf) :
    capacity other = capacity text := by
  have image := congrArg (List.map fun c : Option CharClass => c.elim 1 CharClass.radix) same
  rw [List.map_map, List.map_map] at image
  exact congrArg List.prod image

theorem capacity_reverse : capacity text.reverse = capacity text := by
  rw [capacity, List.map_reverse, List.prod_reverse]
  rfl

/-- Texts of the same classes are told apart by their numbers. -/
theorem eq_of_rankFrom (alnum : Alnum text) (same : other.map classOf = text.map classOf)
    (equal : rankFrom other = rankFrom text) : other = text := by
  induction text generalizing other with
  | nil => exact List.map_eq_nil_iff.mp same
  | cons ch rest induction =>
      cases other with
      | nil => cases same
      | cons d left =>
          obtain ⟨sameHead, sameTail⟩ := List.cons.inj same
          obtain ⟨c, isClass⟩ := alnum.head
          have small := offset_lt isClass
          have bound := offset_lt (sameHead.trans isClass)
          simp only [rankFrom, radix_of_classes sameHead] at equal bound
          have heads : offset d = offset ch := by
            have := congrArg (· % radix ch) equal
            simpa only [Nat.add_mul_mod_self_left, Nat.mod_eq_of_lt bound,
              Nat.mod_eq_of_lt small] using this
          have tails : rankFrom left = rankFrom rest := by
            rw [heads] at equal
            exact Nat.eq_of_mul_eq_mul_left (Nat.zero_lt_of_lt small) (Nat.add_left_cancel equal)
          have bytes : d = ch := by
            apply UInt8.toNat_inj.mp
            rw [toNat_eq_offset isClass, toNat_eq_offset (sameHead.trans isClass), heads]
          rw [bytes, induction alnum.tail sameTail tails]

theorem rankFrom_lt (alnum : Alnum text) : rankFrom text < capacity text := by
  induction text with
  | nil => exact Nat.one_pos
  | cons ch rest induction =>
      obtain ⟨c, isClass⟩ := alnum.head
      have small := offset_lt isClass
      have product : capacity (ch :: rest) = radix ch * capacity rest := List.prod_cons
      calc rankFrom (ch :: rest) < radix ch + radix ch * rankFrom rest :=
            Nat.add_lt_add_right small _
        _ = radix ch * (rankFrom rest + 1) := by rw [Nat.mul_add, Nat.mul_one, Nat.add_comm]
        _ ≤ capacity (ch :: rest) := by
            rw [product]
            exact Nat.mul_le_mul_left _ (induction alnum.tail)

theorem rank_lt (alnum : Alnum text) : rank text < capacity text := by
  rw [← capacity_reverse]
  exact rankFrom_lt (alnum_reverse.mpr alnum)

theorem eq_of_rank (alnum : Alnum text) (same : other.map classOf = text.map classOf)
    (equal : rank other = rank text) : other = text := by
  apply List.reverse_injective
  apply eq_of_rankFrom (alnum_reverse.mpr alnum) _ equal
  rw [List.map_reverse, List.map_reverse, same]

theorem rankFrom_append (text : List UInt8) (ch : UInt8) :
    rankFrom (text ++ [ch]) = rankFrom text + capacity text * offset ch := by
  induction text with
  | nil => simp [rankFrom, capacity]
  | cons d rest induction =>
      have product : capacity (d :: rest) = radix d * capacity rest := List.prod_cons
      rw [List.cons_append, rankFrom, induction, rankFrom, product, Nat.mul_add, ← Nat.add_assoc,
        Nat.mul_assoc]

theorem rank_cons (ch : UInt8) (text : List UInt8) :
    rank (ch :: text) = rank text + capacity text * offset ch := by
  rw [rank, List.reverse_cons, rankFrom_append, capacity_reverse]
  rfl

/-! ## The loop -/

/-- A byte below the last one of its class. -/
theorem succ_of_ne_last (isClass : classOf ch = some c) (below : ch ≠ c.last) :
    classOf (ch + 1) = some c ∧ offset (ch + 1) = offset ch + 1 := by
  have bounds := classOf_iff.mp isClass
  have last := toNat_last c
  have distinct : ch.toNat ≠ c.last.toNat := fun equal => below (UInt8.toNat_inj.mp equal)
  have small : c.last.toNat < 256 := UInt8.toNat_lt c.last
  have next : (ch + 1).toNat = ch.toNat + 1 := by
    rw [UInt8.toNat_add]
    exact Nat.mod_eq_of_lt (by change ch.toNat + 1 < 256; omega)
  have nextClass : classOf (ch + 1) = some c := by
    rw [classOf_iff, next]
    omega
  refine ⟨nextClass, ?_⟩
  have value := toNat_eq_offset isClass
  have nextValue := toNat_eq_offset nextClass
  omega

/-- The loop adds one, with a carry that is worth the capacity of the text. -/
theorem incrementLoop_spec (carry : Option CharClass) (alnum : Alnum text)
    (nonempty : text ≠ []) :
    (incrementLoop carry text).1.map classOf = text.map classOf ∧
      (((incrementLoop carry text).2 = none ∧
          rankFrom (incrementLoop carry text).1 = rankFrom text + 1) ∨
        ((incrementLoop carry text).2 = text.getLast?.bind classOf ∧
          rankFrom (incrementLoop carry text).1 = 0 ∧ rankFrom text + 1 = capacity text)) := by
  induction text generalizing carry with
  | nil => exact absurd rfl nonempty
  | cons ch rest induction =>
      obtain ⟨c, isClass⟩ := alnum.head
      have product : capacity (ch :: rest) = radix ch * capacity rest := List.prod_cons
      rw [incrementLoop, isClass]
      dsimp only
      split
      · rename_i isLast
        have value := toNat_eq_offset isClass
        have last := toNat_last c
        have width := radix_eq isClass
        rw [isLast] at value
        have full : offset ch + 1 = radix ch := by
          rw [isLast] at width ⊢
          omega
        cases rest with
        | nil =>
            refine ⟨by rw [incrementLoop, List.map_cons, classOf_first, List.map_cons, isClass],
              .inr ⟨?_, ?_, ?_⟩⟩
            · simp [incrementLoop, isClass]
            · simp [incrementLoop, rankFrom, offset_first]
            · rw [product]
              simpa [rankFrom, capacity] using full
        | cons d more =>
            obtain ⟨classes, result⟩ := induction (some c) alnum.tail (List.cons_ne_nil d more)
            refine ⟨by rw [List.map_cons, classes, classOf_first, ← isClass]; rfl, ?_⟩
            have firstRadix : radix c.first = radix ch :=
              radix_of_classes ((classOf_first c).trans isClass.symm)
            rw [rankFrom, rankFrom, offset_first, firstRadix, Nat.zero_add]
            apply result.imp
            · intro ends
              refine ⟨ends.1, ?_⟩
              rw [ends.2, Nat.mul_add, Nat.mul_one]
              omega
            · intro carries
              refine ⟨carries.1, by rw [carries.2.1, Nat.mul_zero], ?_⟩
              rw [product, ← carries.2.2, Nat.mul_add, Nat.mul_one]
              omega
      · rename_i below
        obtain ⟨nextClass, nextOffset⟩ := succ_of_ne_last isClass below
        refine ⟨by rw [List.map_cons, nextClass, List.map_cons, isClass], .inl ⟨rfl, ?_⟩⟩
        rw [rankFrom, rankFrom, nextOffset,
          radix_of_classes (nextClass.trans isClass.symm)]
        omega

/-! ## The successor -/

/-- What `increment_string` makes of a text: the next text of its classes, or behind the last
one the first text with one more byte. -/
inductive Successor (text next : List UInt8) : Prop
  | within (classes : next.map classOf = text.map classOf) (grown : rank next = rank text + 1)
  | extended (c : CharClass) (low : List UInt8) (head : text.head?.bind classOf = some c)
      (form : next = c.extension :: low) (classes : low.map classOf = text.map classOf)
      (zero : rank low = 0) (full : rank text + 1 = capacity text)

theorem successor_incrementString (alnum : Alnum text) (nonempty : text ≠ []) :
    Successor text (incrementString text) := by
  have reversed : text.reverse ≠ [] := fun equal => nonempty (List.reverse_eq_nil_iff.mp equal)
  obtain ⟨classes, result⟩ :=
    incrementLoop_spec none (alnum_reverse.mpr alnum) reversed
  have kept : (incrementLoop none text.reverse).1.reverse.map classOf = text.map classOf := by
    rw [List.map_reverse, classes, List.map_reverse, List.reverse_reverse]
  unfold incrementString
  rw [if_neg nonempty]
  rcases result with ⟨ends, grown⟩ | ⟨carries, zero, full⟩
  · dsimp only
    rw [ends]
    apply Successor.within kept
    rw [rank, List.reverse_reverse]
    exact grown
  · obtain ⟨ch, rest, rfl⟩ := List.exists_cons_of_ne_nil nonempty
    obtain ⟨c, isClass⟩ := alnum.head
    have carry : (incrementLoop none (ch :: rest).reverse).2 = some c := by
      rw [carries, List.getLast?_reverse]
      exact isClass
    dsimp only
    rw [carry]
    apply Successor.extended c _ _ rfl kept
    · rw [rank, List.reverse_reverse]
      exact zero
    · rw [← capacity_reverse]
      exact full
    · exact isClass

theorem Successor.alnum {next : List UInt8} (successor : Successor text next)
    (alnum : Alnum text) : Alnum next := by
  cases successor with
  | within classes => exact alnum.of_classes classes
  | extended c low head form classes =>
      rw [form]
      intro d member
      rcases List.mem_cons.mp member with front | inLow
      · rw [front, classOf_extension]
        rfl
      · exact alnum.of_classes classes d inLow

/-- Texts in the order in which they are reached: by length, then by number. -/
def stage (text : List UInt8) : Nat ×ₗ Nat := toLex (text.length, rank text)

theorem Successor.stage_lt {next : List UInt8} (successor : Successor text next) :
    stage text < stage next := by
  rw [stage, stage, Prod.Lex.toLex_lt_toLex]
  cases successor with
  | within classes grown =>
      have lengths := congrArg List.length classes
      simp only [List.length_map] at lengths
      right
      exact ⟨lengths.symm, by omega⟩
  | extended c low head form classes =>
      have lengths := congrArg List.length classes
      simp only [List.length_map] at lengths
      left
      rw [form, List.length_cons]
      dsimp only
      omega

theorem alnum_iterate (alnum : Alnum text) (nonempty : text ≠ []) (n : Nat) :
    Alnum (incrementString^[n] text) ∧ incrementString^[n] text ≠ [] := by
  induction n with
  | zero => exact ⟨alnum, nonempty⟩
  | succ n induction =>
      have successor := successor_incrementString induction.1 induction.2
      rw [Function.iterate_succ_apply']
      refine ⟨successor.alnum induction.1, ?_⟩
      intro empty
      have later := successor.stage_lt
      rw [empty, stage, stage, Prod.Lex.toLex_lt_toLex] at later
      simp [rank, rankFrom] at later

theorem stage_strictMono (alnum : Alnum text) (nonempty : text ≠ []) :
    StrictMono fun n => stage (incrementString^[n] text) := by
  apply strictMono_nat_of_lt_succ
  intro n
  have member := alnum_iterate alnum nonempty n
  rw [Function.iterate_succ_apply']
  exact (successor_incrementString member.1 member.2).stage_lt

/-- A text of nines and last letters that starts with a digit, and the same text behind a
zero: both go on with the same text. -/
def Caught (text other : List UInt8) : Prop :=
  other = byte '0' :: text ∧ text.head?.bind classOf = some .numeric ∧
    rank text + 1 = capacity text

theorem alnum_cons_zero (alnum : Alnum text) : Alnum (byte '0' :: text) := by
  intro d member
  rcases List.mem_cons.mp member with front | inText
  · rw [front]
    rfl
  · exact alnum d inText

/-- A text that grows and one that does not go on with the same text only if the first has
caught up with the second. -/
theorem caught_of_extended {next : List UInt8} {low : List UInt8} (alnum : Alnum text)
    (head : text.head?.bind classOf = some c)
    (form : next = c.extension :: low) (classes : low.map classOf = text.map classOf)
    (zero : rank low = 0) (full : rank text + 1 = capacity text)
    (otherClasses : next.map classOf = other.map classOf) (grown : rank next = rank other + 1) :
    Caught text other := by
  rw [form, rank_cons, zero, capacity_of_classes classes, ← full] at grown
  rw [form, List.map_cons, classOf_extension, classes] at otherClasses
  cases c with
  | lowerCase => cases (Nat.zero_add _).symm.trans grown
  | upperCase => cases (Nat.zero_add _).symm.trans grown
  | numeric =>
      have value : rank other = rank text := by
        change 0 + (rank text + 1) * 1 = rank other + 1 at grown
        omega
      refine ⟨?_, head, full⟩
      apply eq_of_rank
      · exact alnum_cons_zero alnum
      · exact otherClasses.symm
      · rw [rank_cons, value]
        rfl

theorem incrementString_caught (alnum : Alnum text) (nonempty : text ≠ [])
    (caught : Caught text other) : incrementString text = incrementString other := by
  obtain ⟨rfl, head, full⟩ := caught
  have otherAlnum := alnum_cons_zero alnum
  have zeroRank : rank (byte '0' :: text) = rank text := rank_cons (byte '0') text
  have product : capacity (byte '0' :: text) = 10 * capacity text := List.prod_cons
  cases successor_incrementString otherAlnum (List.cons_ne_nil _ _) with
  | extended c low otherHead form classes zero otherFull => omega
  | within otherClasses grown =>
      cases successor_incrementString alnum nonempty with
      | within classes same =>
          have small := rank_lt (alnum.of_classes classes)
          rw [capacity_of_classes classes] at small
          omega
      | extended c low textHead form classes zero =>
          cases textHead.symm.trans head
          rw [form]
          apply eq_of_rank (otherAlnum.of_classes otherClasses)
          · rw [otherClasses, List.map_cons, classes]
            rfl
          · rw [rank_cons, zero, capacity_of_classes classes, grown, zeroRank, full]
            exact (Nat.zero_add _).trans (Nat.mul_one _)

/-- `increment_string` gives the successor, tells texts apart unless one has caught up with
the other, and never comes back. -/
theorem incrementString_successor (text : List UInt8) (alnum : Alnum text)
    (nonempty : text ≠ []) :
    Successor text (incrementString text) ∧
      (∀ other, Alnum other → other ≠ [] →
        (incrementString text = incrementString other ↔
          text = other ∨ Caught text other ∨ Caught other text)) ∧
      ∀ earlier later, earlier < later →
        incrementString^[earlier] text ≠ incrementString^[later] text := by
  have successor := successor_incrementString alnum nonempty
  refine ⟨successor, ?_, ?_⟩
  · intro other otherAlnum otherNonempty
    constructor
    · intro equal
      have otherSuccessor := successor_incrementString otherAlnum otherNonempty
      rw [← equal] at otherSuccessor
      cases successor with
      | within classes grown =>
          cases otherSuccessor with
          | within otherClasses otherGrown =>
              left
              apply eq_of_rank otherAlnum (classes.symm.trans otherClasses)
              omega
          | extended c low head form lowClasses zero full =>
              exact .inr (.inr (caught_of_extended otherAlnum head form lowClasses zero full
                classes grown))
      | extended c low head form classes zero full =>
          cases otherSuccessor with
          | within otherClasses otherGrown =>
              exact .inr (.inl (caught_of_extended alnum head form classes zero full
                otherClasses otherGrown))
          | extended d otherLow otherHead otherForm otherClasses otherZero otherFull =>
              left
              obtain ⟨-, sameLow⟩ := List.cons.inj (form.symm.trans otherForm)
              have sameClasses : text.map classOf = other.map classOf := by
                rw [← classes, ← otherClasses, sameLow]
              apply eq_of_rank otherAlnum sameClasses
              have capacities := capacity_of_classes sameClasses
              omega
    · intro either
      rcases either with equal | caught | caught
      · rw [equal]
      · exact incrementString_caught alnum nonempty caught
      · exact (incrementString_caught otherAlnum otherNonempty caught).symm
  · intro earlier later before equal
    have apart := stage_strictMono alnum nonempty before
    dsimp only at apart
    rw [equal] at apart
    exact lt_irrefl _ apart

/-- A carry into a new place. -/
theorem incrementString_zz9 :
    Successor ("Zz9".toList.map byte) ("AAa0".toList.map byte) :=
  (incrementString_successor ("Zz9".toList.map byte) (forall_of_all (by decide)) (by decide)).1

/-- The texts `9z` and `09z` go on with the same text. -/
theorem incrementString_not_injective :
    ¬ ∀ text other, Alnum text → Alnum other → text ≠ [] → other ≠ [] →
      incrementString text = incrementString other → text = other := by
  intro injective
  have equal := injective ("9z".toList.map byte) ("09z".toList.map byte) (forall_of_all (by decide))
    (forall_of_all (by decide)) (by decide) (by decide) (by decide)
  exact absurd equal (by decide)

end PhpRuntime.Operators
