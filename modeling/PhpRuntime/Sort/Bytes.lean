import PhpRuntime.Sort.Qsort

/-! Arrays of bytes. `_zend_qsort_swap` exchanges two elements of any size. -/

namespace PhpRuntime.Sort

open PhpRuntime.Exchange

/-- Where the byte at `k` comes from, when `count` bytes at `a` and at `b` are exchanged. -/
def swapIndex (a b count k : Nat) : Nat :=
  if a ≤ k ∧ k < a + count then k - a + b
  else if b ≤ k ∧ k < b + count then k - b + a
  else k

def Swapped (memory memory' : List UInt8) (a b count : Nat) : Prop :=
  memory'.length = memory.length ∧ ∀ k, memory'[k]? = memory[swapIndex a b count k]?

/-- Two elements are one, or they do not overlap. -/
def Apart (a b siz : Nat) : Prop := a = b ∨ a + siz ≤ b ∨ b + siz ≤ a

variable {memory memory' : List UInt8} {a b count width siz : Nat}

theorem getElem?_readBytes (memory : List UInt8) (at_ width k : Nat) :
    (readBytes memory at_ width)[k]? = if k < width then memory[at_ + k]? else none := by
  rw [readBytes, List.getElem?_take, List.getElem?_drop]

theorem length_readBytes {at_ : Nat} (inside : at_ + width ≤ memory.length) :
    (readBytes memory at_ width).length = width := by
  rw [readBytes, List.length_take, List.length_drop]
  omega

theorem length_writeBytes {at_ : Nat} {bytes : List UInt8}
    (inside : at_ + bytes.length ≤ memory.length) :
    (writeBytes memory at_ bytes).length = memory.length := by
  simp only [writeBytes, List.length_append, List.length_take, List.length_drop]
  omega

theorem getElem?_writeBytes {at_ : Nat} {bytes : List UInt8}
    (inside : at_ + bytes.length ≤ memory.length) (k : Nat) :
    (writeBytes memory at_ bytes)[k]? =
      if at_ ≤ k ∧ k < at_ + bytes.length then bytes[k - at_]? else memory[k]? := by
  have front : (memory.take at_).length = at_ := by
    rw [List.length_take]
    omega
  rw [writeBytes, List.append_assoc, List.getElem?_append, List.getElem?_append, front]
  by_cases before : k < at_
  · rw [if_pos before, List.getElem?_take, if_pos before, if_neg (by omega)]
  · rw [if_neg before]
    by_cases within : k - at_ < bytes.length
    · rw [if_pos within, if_pos (by omega)]
    · rw [if_neg within, if_neg (by omega), List.getElem?_drop]
      congr 1
      omega

theorem swapWidth_swapped (aInside : a + width ≤ memory.length)
    (bInside : b + width ≤ memory.length) (apart : Apart a b width) :
    Swapped memory (swapWidth width memory a b) a b width := by
  have aLength := length_readBytes aInside
  have bLength := length_readBytes bInside
  have firstLength : (writeBytes memory a (readBytes memory b width)).length = memory.length :=
    length_writeBytes (by omega)
  refine ⟨?_, fun k => ?_⟩
  · rw [swapWidth, length_writeBytes (by omega), firstLength]
  · rw [swapWidth, getElem?_writeBytes (by omega), getElem?_writeBytes (by omega), aLength, bLength,
      getElem?_readBytes, getElem?_readBytes, swapIndex]
    by_cases inB : b ≤ k ∧ k < b + width
    · rw [if_pos inB, if_pos (by omega)]
      by_cases inA : a ≤ k ∧ k < a + width
      · rw [if_pos inA]
        congr 1
        rcases apart with same | before | behind <;> omega
      · rw [if_neg inA, if_pos inB, Nat.add_comm]
    · rw [if_neg inB]
      by_cases inA : a ≤ k ∧ k < a + width
      · rw [if_pos inA, if_pos inA, if_pos (by omega), Nat.add_comm]
      · rw [if_neg inA, if_neg inA, if_neg inB]

/-- The next bytes behind those that are exchanged already. -/
theorem swapIndex_swapIndex (apart : Apart a b siz) (inside : count + width ≤ siz) (k : Nat) :
    swapIndex a b count (swapIndex (a + count) (b + count) width k) =
      swapIndex a b (count + width) k := by
  unfold swapIndex
  rcases apart with same | before | behind <;> split_ifs <;> omega

theorem Swapped.more (swapped : Swapped memory memory' a b count) (apart : Apart a b siz)
    (inside : count + width ≤ siz) (aInside : a + siz ≤ memory.length)
    (bInside : b + siz ≤ memory.length) :
    Swapped memory (swapWidth width memory' (a + count) (b + count)) a b (count + width) := by
  rcases swapped with ⟨length, fromMemory⟩
  have nextApart : Apart (a + count) (b + count) width := by
    rcases apart with same | before | behind
    · exact Or.inl (by omega)
    · exact Or.inr (Or.inl (by omega))
    · exact Or.inr (Or.inr (by omega))
  rcases swapWidth_swapped (by omega : a + count + width ≤ memory'.length)
    (by omega : b + count + width ≤ memory'.length) nextApart with ⟨nextLength, fromNext⟩
  refine ⟨nextLength.trans length, fun k => ?_⟩
  rw [fromNext k, fromMemory, swapIndex_swapIndex apart inside]

/-- The loop over values of one width leaves fewer bytes than one more value has. -/
theorem swapLoop_spec {fuel : Nat} (positive : 0 < width) (apart : Apart a b siz)
    (aInside : a + siz ≤ memory.length) (bInside : b + siz ≤ memory.length)
    (swapped : Swapped memory memory' a b count) (soFar : count ≤ siz)
    (enough : siz < fuel + count) :
    ∃ result done, swapLoop width siz fuel (count + width) (a + count) (b + count) memory' =
        some (result, done + width, a + done, b + done) ∧
      Swapped memory result a b done ∧ done ≤ siz ∧ siz < done + width := by
  induction fuel generalizing count memory' with
  | zero => omega
  | succ fuel induction =>
      rw [swapLoop]
      split
      · rename_i more
        have later := induction (swapped.more apart more aInside bInside) more (by omega)
        rw [← Nat.add_assoc a, ← Nat.add_assoc b] at later
        exact later
      · exact ⟨memory', count, rfl, swapped, soFar, by omega⟩

theorem zendQsortSwap_swapped (apart : Apart a b siz) (aInside : a + siz ≤ memory.length)
    (bInside : b + siz ≤ memory.length) :
    ∃ result, zendQsortSwap memory a b siz = some result ∧ Swapped memory result a b siz := by
  have nothing : Swapped memory memory a b 0 := by
    refine ⟨rfl, fun k => ?_⟩
    rw [swapIndex, if_neg (by omega), if_neg (by omega)]
  rcases @swapLoop_spec memory memory a b 0 4 siz (siz + 1) (by omega) apart aInside bInside nothing
    (by omega) (by omega) with ⟨ints, done, isInts, swappedInts, doneTo, _⟩
  rcases @swapLoop_spec memory ints a b done 1 siz (siz + 1) (by omega) apart aInside bInside
    swappedInts doneTo (by omega) with ⟨result, all, isResult, swappedAll, allTo, allFrom⟩
  have isAll : all = siz := by omega
  refine ⟨result, ?_, isAll ▸ swappedAll⟩
  simp only [Nat.zero_add, Nat.add_zero] at isInts
  rw [zendQsortSwap, isInts, Option.bind_eq_bind, Option.bind_some]
  dsimp only
  rw [Nat.add_sub_cancel, isResult]
  rfl

/-! ### The array -/

/-- The memory of `nmemb` elements of `siz` bytes each. -/
abbrev Memory (nmemb siz : Nat) : Type := { bytes : List UInt8 // bytes.length = nmemb * siz }

namespace Memory

variable {nmemb siz : Nat}

def elements (memory : Memory nmemb siz) : List (List UInt8) :=
  (List.range nmemb).map fun i => readBytes memory.1 (i * siz) siz

theorem length_elements (memory : Memory nmemb siz) : memory.elements.length = nmemb := by
  rw [elements, List.length_map, List.length_range]

theorem getElem?_elements (memory : Memory nmemb siz) {i : Nat} (inside : i < nmemb) :
    memory.elements[i]? = some (readBytes memory.1 (i * siz) siz) := by
  rw [elements, List.getElem?_map, List.getElem?_range inside]
  rfl

/-- The element at an address. -/
def load (memory : Memory nmemb siz) (address : Int) : Option (List UInt8) := do
  let i ← place siz nmemb address
  some (readBytes memory.1 (i * siz) siz)

def swap (memory : Memory nmemb siz) (a b : Int) : Option (Memory nmemb siz) := do
  let i ← place siz nmemb a
  let j ← place siz nmemb b
  let bytes ← zendQsortSwap memory.1 (i * siz) (j * siz) siz
  if isLength : bytes.length = nmemb * siz then some ⟨bytes, isLength⟩ else none

theorem inside (memory : Memory nmemb siz) {i : Nat} (bound : i < nmemb) :
    i * siz + siz ≤ memory.1.length := by
  rw [memory.2, ← Nat.succ_mul]
  exact Nat.mul_le_mul_right siz bound

theorem places_apart (x y siz : Nat) :
    x = y ∨ x * siz + siz ≤ y * siz ∨ y * siz + siz ≤ x * siz := by
  have apart : ∀ x y : Nat, x < y → x * siz + siz ≤ y * siz := by
    intro x y less
    rw [← Nat.succ_mul]
    exact Nat.mul_le_mul_right siz less
  rcases Nat.lt_trichotomy x y with less | same | greater
  · exact Or.inr (Or.inl (apart x y less))
  · exact Or.inl same
  · exact Or.inr (Or.inr (apart y x greater))

theorem swapIndex_place {i j k t : Nat} (tBound : t < siz) :
    swapIndex (i * siz) (j * siz) siz (k * siz + t) =
      (if k = i then j else if k = j then i else k) * siz + t := by
  rw [swapIndex]
  rcases places_apart k i siz with same | other
  · rw [if_pos same, same, if_pos (by omega)]
    omega
  · have notI : k ≠ i := by
      rintro rfl
      omega
    rw [if_neg (by omega), if_neg notI]
    rcases places_apart k j siz with same | other
    · rw [if_pos same, same, if_pos (by omega)]
      omega
    · have notJ : k ≠ j := by
        rintro rfl
        omega
      rw [if_neg (by omega), if_neg notJ]

/-- The bytes of two elements exchanged are the two elements exchanged. -/
theorem elements_swapped {memory memory' : Memory nmemb siz} {i j : Nat} (iBound : i < nmemb)
    (jBound : j < nmemb) (swapped : Swapped memory.1 memory'.1 (i * siz) (j * siz) siz) :
    memory'.elements = exchange memory.elements i j := by
  apply List.ext_getElem?
  intro k
  have iBound' : i < memory.elements.length := by rwa [length_elements]
  have jBound' : j < memory.elements.length := by rwa [length_elements]
  rw [getElem?_exchange iBound' jBound']
  by_cases kBound : k < nmemb
  · have origin : (if k = i then j else if k = j then i else k) < nmemb := by
      split_ifs <;> assumption
    rw [getElem?_elements _ kBound, getElem?_elements _ origin]
    congr 1
    apply List.ext_getElem?
    intro t
    rw [getElem?_readBytes, getElem?_readBytes]
    by_cases tBound : t < siz
    · rw [if_pos tBound, if_pos tBound, swapped.2]
      congr 1
      exact swapIndex_place tBound
    · rw [if_neg tBound, if_neg tBound]
  · have notI : k ≠ i := by omega
    have notJ : k ≠ j := by omega
    rw [if_neg notI, if_neg notJ, List.getElem?_eq_none (by rw [length_elements]; omega),
      List.getElem?_eq_none (by rw [length_elements]; omega)]

end Memory

/-- An array of elements of any size, in memory. -/
def byteArray (nmemb siz : Nat) : ElementArray (Memory nmemb siz) (List UInt8) where
  siz := siz
  elements := Memory.elements
  load := Memory.load
  swap := Memory.swap
  load_iff := by
    intro positive memory address x
    rw [Memory.load, Option.bind_eq_bind, Option.bind_eq_some_iff]
    constructor
    · rintro ⟨i, isPlace, isElement⟩
      have atI := (place_eq_some positive).mp isPlace
      exact ⟨i, atI.2, (memory.getElem?_elements atI.1).trans isElement⟩
    · rintro ⟨i, equal, isElement⟩
      have bound := (List.getElem?_eq_some_iff.mp isElement).1
      rw [Memory.length_elements] at bound
      exact ⟨i, (place_eq_some positive).mpr ⟨bound, equal⟩,
        (memory.getElem?_elements bound).symm.trans isElement⟩
  swap_valid := by
    intro positive memory a b memory' swapped
    rcases Option.bind_eq_some_iff.mp swapped with ⟨i, isI, swapped⟩
    rcases Option.bind_eq_some_iff.mp swapped with ⟨j, isJ, _⟩
    have atI := (place_eq_some positive).mp isI
    have atJ := (place_eq_some positive).mp isJ
    rw [Memory.length_elements]
    exact ⟨i, j, atI.1, atJ.1, atI.2, atJ.2⟩
  swap_eq := by
    intro positive memory i j iBound jBound
    rw [Memory.length_elements] at iBound jBound
    have apart : Apart (i * siz) (j * siz) siz :=
      (Memory.places_apart i j siz).imp (congrArg (· * siz)) id
    rcases zendQsortSwap_swapped apart (memory.inside iBound) (memory.inside jBound) with
      ⟨bytes, equal, swapped⟩
    have isLength := swapped.1.trans memory.2
    refine ⟨⟨bytes, isLength⟩, ?_, Memory.elements_swapped iBound jBound swapped⟩
    rw [Memory.swap, (place_eq_some positive).mpr ⟨iBound, rfl⟩,
      (place_eq_some positive).mpr ⟨jBound, rfl⟩]
    simp only [Option.bind_eq_bind, Option.bind_some, equal, dif_pos isLength]

end PhpRuntime.Sort
