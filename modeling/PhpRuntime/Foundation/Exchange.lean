import Mathlib.Data.List.Perm.Basic

/-! Arrays that are changed by exchanging two elements.

An array is used through addresses: the element at place `i` is at `i * siz`. `ElementArray`
is what an implementation of such an array has to provide, and `Rearranged` says that all
the exchanges of a piece of code were made inside of one window. -/

namespace PhpRuntime.Exchange

/-- The list with two of its elements exchanged. -/
def exchange (list : List α) (i j : Nat) : List α :=
  match list[i]?, list[j]? with
  | some x, some y => (list.set i y).set j x
  | _, _ => list

section Exchange

variable {list : List α} {i j k : Nat}

theorem exchange_eq (iBound : i < list.length) (jBound : j < list.length) :
    exchange list i j = (list.set i list[j]).set j list[i] := by
  simp [exchange, iBound, jBound]

theorem exchange_perm (iBound : i < list.length) (jBound : j < list.length) :
    (exchange list i j).Perm list := by
  rw [exchange_eq iBound jBound]
  exact List.set_set_perm iBound jBound

theorem getElem?_exchange (iBound : i < list.length) (jBound : j < list.length) :
    (exchange list i j)[k]? = list[if k = i then j else if k = j then i else k]? := by
  rw [exchange_eq iBound jBound, List.getElem?_set, List.getElem?_set, List.length_set]
  by_cases isJ : j = k
  · by_cases isI : i = k
    · subst isJ isI
      simp [jBound]
    · rw [if_pos isJ, if_pos jBound, if_neg (Ne.symm isI), if_pos isJ.symm,
        List.getElem?_eq_getElem iBound]
  · rw [if_neg isJ]
    by_cases isI : i = k
    · rw [if_pos isI, if_pos iBound, if_pos isI.symm, List.getElem?_eq_getElem jBound]
    · rw [if_neg isI, if_neg (Ne.symm isI), if_neg (Ne.symm isJ)]

theorem getElem?_exchange_left (iBound : i < list.length) (jBound : j < list.length) :
    (exchange list i j)[i]? = list[j]? := by
  rw [getElem?_exchange iBound jBound, if_pos rfl]

theorem getElem?_exchange_right (iBound : i < list.length) (jBound : j < list.length) :
    (exchange list i j)[j]? = list[i]? := by
  rw [getElem?_exchange iBound jBound]
  by_cases same : j = i
  · rw [if_pos same, same]
  · rw [if_neg same, if_pos rfl]

theorem getElem?_exchange_other (iBound : i < list.length) (jBound : j < list.length)
    (notI : k ≠ i) (notJ : k ≠ j) : (exchange list i j)[k]? = list[k]? := by
  rw [getElem?_exchange iBound jBound, if_neg notI, if_neg notJ]

end Exchange

/-! ### Windows -/

/-- Exchanges at places from `lo` on and below `hi`. -/
inductive Rearranged (lo hi : Nat) : List α → List α → Prop
  | refl (list : List α) : Rearranged lo hi list list
  | step {list list' : List α} {i j : Nat} (earlier : Rearranged lo hi list list')
      (iFrom : lo ≤ i) (iBelow : i < hi) (jFrom : lo ≤ j) (jBelow : j < hi)
      (iBound : i < list'.length) (jBound : j < list'.length) :
      Rearranged lo hi list (exchange list' i j)

namespace Rearranged

variable {list list' list'' : List α} {lo hi i j k : Nat}

theorem single (iFrom : lo ≤ i) (iBelow : i < hi) (jFrom : lo ≤ j) (jBelow : j < hi)
    (inside : hi ≤ list.length) : Rearranged lo hi list (exchange list i j) :=
  (refl list).step iFrom iBelow jFrom jBelow (by omega) (by omega)

theorem trans (first : Rearranged lo hi list list') (second : Rearranged lo hi list' list'') :
    Rearranged lo hi list list'' := by
  induction second with
  | refl => exact first
  | step _ iFrom iBelow jFrom jBelow iBound jBound induction =>
      exact induction.step iFrom iBelow jFrom jBelow iBound jBound

theorem perm (rearranged : Rearranged lo hi list list') : list'.Perm list := by
  induction rearranged with
  | refl => exact .refl _
  | step _ _ _ _ _ iBound jBound induction => exact (exchange_perm iBound jBound).trans induction

theorem length (rearranged : Rearranged lo hi list list') : list'.length = list.length :=
  rearranged.perm.length_eq

theorem widen {lo' hi' : Nat} (rearranged : Rearranged lo hi list list') (lower : lo' ≤ lo)
    (upper : hi ≤ hi') : Rearranged lo' hi' list list' := by
  induction rearranged with
  | refl => exact .refl _
  | step _ iFrom iBelow jFrom jBelow iBound jBound induction =>
      exact induction.step (by omega) (by omega) (by omega) (by omega) iBound jBound

theorem outside (rearranged : Rearranged lo hi list list') (out : k < lo ∨ hi ≤ k) :
    list'[k]? = list[k]? := by
  induction rearranged with
  | refl => rfl
  | step _ iFrom iBelow jFrom jBelow iBound jBound induction =>
      rw [getElem?_exchange_other iBound jBound (by omega) (by omega), induction]

/-- What is in the window afterwards was in the window before. -/
theorem inside (rearranged : Rearranged lo hi list list') (lower : lo ≤ k) (upper : k < hi) :
    ∃ origin, lo ≤ origin ∧ origin < hi ∧ list'[k]? = list[origin]? := by
  induction rearranged generalizing k with
  | refl => exact ⟨k, lower, upper, rfl⟩
  | step _ iFrom iBelow jFrom jBelow iBound jBound induction =>
      rw [getElem?_exchange iBound jBound]
      split
      · exact induction jFrom jBelow
      · split
        · exact induction iFrom iBelow
        · exact induction lower upper

end Rearranged

/-! ### Implementations -/

/-- An array in a memory `M`, whose elements are read and exchanged by their addresses. The
operations are defined at the addresses of elements only. -/
structure ElementArray (M α : Type) where
  siz : Nat
  elements : M → List α
  load : M → Int → Option α
  swap : M → Int → Int → Option M
  load_iff : 0 < siz → ∀ m address x,
    load m address = some x ↔ ∃ i : Nat, address = i * siz ∧ (elements m)[i]? = some x
  swap_valid : 0 < siz → ∀ m a b m', swap m a b = some m' →
    ∃ i j : Nat, i < (elements m).length ∧ j < (elements m).length ∧ a = i * siz ∧ b = j * siz
  swap_eq : 0 < siz → ∀ m (i j : Nat), i < (elements m).length → j < (elements m).length →
    ∃ m', swap m (i * siz) (j * siz) = some m' ∧ elements m' = exchange (elements m) i j

/-- The place of the element at an address, in an array of `nmemb` elements. -/
def place (siz nmemb : Nat) (address : Int) : Option Nat :=
  if 0 ≤ address ∧ address % siz = 0 ∧ (address / siz).toNat < nmemb then
    some (address / siz).toNat
  else
    none

theorem place_eq_some {siz nmemb i : Nat} {address : Int} (positive : 0 < siz) :
    place siz nmemb address = some i ↔ i < nmemb ∧ address = i * siz := by
  have nonzero : (siz : Int) ≠ 0 := by omega
  rw [place]
  split
  · rename_i isPlace
    have back := Int.mul_ediv_add_emod address siz
    constructor
    · intro equal
      cases equal
      refine ⟨isPlace.2.2, ?_⟩
      rw [Int.toNat_of_nonneg (Int.ediv_nonneg isPlace.1 (by omega)), Int.mul_comm]
      omega
    · rintro ⟨_, rfl⟩
      rw [Int.mul_ediv_cancel _ nonzero]
      rfl
  · rename_i noPlace
    constructor
    · intro equal
      cases equal
    · rintro ⟨bound, rfl⟩
      rw [Int.mul_ediv_cancel _ nonzero, Int.mul_emod_left] at noPlace
      exact absurd ⟨Int.mul_nonneg (by omega) (by omega), rfl, bound⟩ noPlace

/-- The array as a list of elements of any type, with `siz` bytes for each. -/
def listArray (α : Type) (siz : Nat) : ElementArray (List α) α where
  siz := siz
  elements := id
  load list address := do list[← place siz list.length address]?
  swap list a b := do
    let i ← place siz list.length a
    let j ← place siz list.length b
    some (exchange list i j)
  load_iff := by
    intro positive list address x
    rw [Option.bind_eq_bind, Option.bind_eq_some_iff]
    constructor
    · rintro ⟨i, isPlace, isElement⟩
      exact ⟨i, ((place_eq_some positive).mp isPlace).2, isElement⟩
    · rintro ⟨i, equal, isElement⟩
      have bound := (List.getElem?_eq_some_iff.mp isElement).1
      exact ⟨i, (place_eq_some positive).mpr ⟨bound, equal⟩, isElement⟩
  swap_valid := by
    intro positive list a b list' swapped
    rcases Option.bind_eq_some_iff.mp swapped with ⟨i, isI, swapped⟩
    rcases Option.bind_eq_some_iff.mp swapped with ⟨j, isJ, _⟩
    have atI := (place_eq_some positive).mp isI
    have atJ := (place_eq_some positive).mp isJ
    exact ⟨i, j, atI.1, atJ.1, atI.2, atJ.2⟩
  swap_eq := by
    intro positive list i j iBound jBound
    have atI : place siz list.length (i * siz) = some i :=
      (place_eq_some positive).mpr ⟨iBound, rfl⟩
    have atJ : place siz list.length (j * siz) = some j :=
      (place_eq_some positive).mpr ⟨jBound, rfl⟩
    refine ⟨exchange list i j, ?_, rfl⟩
    rw [atI, atJ]
    rfl

end PhpRuntime.Exchange
