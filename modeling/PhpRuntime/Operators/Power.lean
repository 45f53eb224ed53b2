import PhpRuntime.Operators.Classification
import Mathlib.Algebra.Order.Ring.Basic
import Mathlib.Algebra.Order.Ring.Int

/-! # Powers of longs

The case of two longs in `pow_function` of `Zend/zend_operators.c`. The loop squares and
multiplies in longs and leaves for doubles at the first product that overflows, so a product
that overflows has to mean that the power does.
-/

namespace PhpRuntime.Operators

/-- The arithmetic on doubles that is used here. -/
structure DoubleArithmetic where
  ofLong : BitVec 64 → UInt64
  mul : UInt64 → UInt64 → UInt64
  pow : UInt64 → UInt64 → UInt64

inductive Number
  | long (lval : BitVec 64)
  | double (dval : UInt64)
  deriving DecidableEq

section Power

variable (arith : DoubleArithmetic)

/-- `ZEND_SIGNED_MULTIPLY_LONG`, with the exact test of the overflow flag -/
def zendSignedMultiplyLong (a b : BitVec 64) : Number :=
  if a.smulOverflow b then .double (arith.mul (arith.ofLong a) (arith.ofLong b))
  else .long (a * b)

/-- The loop of `pow_function`. -/
def powLoop (l1 l2 : BitVec 64) (i : Nat) : Number :=
  if i = 0 then
    .long l1
  else if i % 2 = 1 then
    match zendSignedMultiplyLong arith l1 l2 with
    | .double dval =>
        .double (arith.mul dval
          (arith.pow (arith.ofLong l2) (arith.ofLong (BitVec.ofNat 64 (i - 1)))))
    | .long l1 => powLoop l1 l2 (i - 1)
  else
    match zendSignedMultiplyLong arith l2 l2 with
    | .double dval =>
        .double (arith.mul (arith.ofLong l1)
          (arith.pow dval (arith.ofLong (BitVec.ofNat 64 (i / 2)))))
    | .long l2 => powLoop l1 l2 (i / 2)
termination_by i

/-- `pow_function` on two longs -/
def powFunction (op1 op2 : BitVec 64) : Number :=
  if 0 ≤ op2.toInt then
    if op2 = 0#64 then .long 1#64
    else if op1 = 0#64 then .long 0#64
    else powLoop arith 1#64 op1 op2.toInt.toNat
  else
    .double (arith.pow (arith.ofLong op1) (arith.ofLong op2))

/-! ## Products -/

theorem inRange_toInt (number : BitVec 64) : InRange number.toInt := by
  have lower := BitVec.le_toInt number
  have upper := BitVec.toInt_lt (x := number)
  exact ⟨lower, upper⟩

/-- A number outside the range stays outside it when it is multiplied. -/
theorem not_inRange_mul {number factor : Int} (overflow : ¬ InRange number)
    (positive : 1 ≤ factor) : ¬ InRange (number * factor) := by
  intro inRange
  apply overflow
  obtain ⟨lower, upper⟩ := inRange
  constructor
  · by_contra below
    have grown : number * factor ≤ number * 1 :=
      mul_le_mul_of_nonpos_left positive (by omega)
    omega
  · by_contra above
    have grown : number * 1 ≤ number * factor :=
      mul_le_mul_of_nonneg_left positive (by omega)
    omega

/-- The bound of the longs is no square. -/
theorem square_ne_bound (number : Int) : number ^ 2 ≠ 2 ^ 63 := by
  intro equal
  have size : number.natAbs ^ 2 = 2 ^ 63 := by
    have := congrArg Int.natAbs equal
    rwa [Int.natAbs_pow] at this
  have below : 3037000499 < number.natAbs := by
    apply lt_of_pow_lt_pow_left₀ 2 (Nat.zero_le _)
    rw [size]
    decide
  have above : number.natAbs < 3037000500 := by
    apply lt_of_pow_lt_pow_left₀ 2 (Nat.zero_le _)
    rw [size]
    decide
  omega

/-- A square outside the range, to a power and with a factor. -/
theorem not_inRange_square {l1 l2 : Int} {k : Nat} (nonzero : l1 ≠ 0) (positive : k ≠ 0)
    (overflow : ¬ InRange (l2 ^ 2)) : ¬ InRange (l1 * (l2 ^ 2) ^ k) := by
  have large : 2 ^ 63 + 1 ≤ l2 ^ 2 := by
    have nonneg := sq_nonneg l2
    have distinct := square_ne_bound l2
    unfold InRange at overflow
    omega
  have power : l2 ^ 2 ≤ (l2 ^ 2) ^ k := le_self_pow₀ (by omega) positive
  intro inRange
  obtain ⟨lower, upper⟩ := inRange
  rcases lt_or_gt_of_ne nonzero with negative | positive
  · have grown : l1 * (l2 ^ 2) ^ k ≤ -1 * (l2 ^ 2) ^ k :=
      mul_le_mul_of_nonneg_right (by omega) (by omega)
    omega
  · have grown : 1 * (l2 ^ 2) ^ k ≤ l1 * (l2 ^ 2) ^ k :=
      mul_le_mul_of_nonneg_right (by omega) (by omega)
    omega

/-- What a multiplication gives. -/
theorem zendSignedMultiplyLong_cases (a b : BitVec 64) :
    (∃ dval, zendSignedMultiplyLong arith a b = .double dval ∧ ¬ InRange (a.toInt * b.toInt)) ∨
      ∃ lval, zendSignedMultiplyLong arith a b = .long lval ∧
        lval.toInt = a.toInt * b.toInt := by
  unfold zendSignedMultiplyLong
  split
  · rename_i overflow
    left
    refine ⟨_, rfl, ?_⟩
    intro inRange
    obtain ⟨lower, upper⟩ := inRange
    simp only [BitVec.smulOverflow, Bool.or_eq_true, decide_eq_true_eq] at overflow
    omega
  · rename_i fits
    exact .inr ⟨_, rfl, BitVec.toInt_mul_of_not_smulOverflow fits⟩

/-! ## The loop -/

/-- The loop gives `l1 * l2 ^ i`, as a long exactly if it is in the range. -/
theorem powLoop_spec {l1 l2 : BitVec 64} (i : Nat) (nonzero : l1.toInt ≠ 0)
    (base : l2.toInt ≠ 0) :
    (∃ dval, powLoop arith l1 l2 i = .double dval ∧ ¬ InRange (l1.toInt * l2.toInt ^ i)) ∨
      ∃ lval, powLoop arith l1 l2 i = .long lval ∧ lval.toInt = l1.toInt * l2.toInt ^ i := by
  induction i using Nat.strong_induction_on generalizing l1 l2 with
  | _ i induction =>
      unfold powLoop
      split
      · rename_i zero
        exact .inr ⟨l1, rfl, by rw [zero, pow_zero, mul_one]⟩
      split
      · -- an odd exponent; the power that is left is a square
        rename_i positive odd
        have split : l1.toInt * l2.toInt ^ i = l1.toInt * l2.toInt * l2.toInt ^ (i - 1) := by
          rw [mul_assoc, ← pow_succ', Nat.sub_add_cancel (by omega)]
        rw [split]
        rcases zendSignedMultiplyLong_cases arith l1 l2 with
          ⟨dval, double, overflow⟩ | ⟨lval, long, product⟩
        · rw [double]
          have even : i - 1 = 2 * (i / 2) := by omega
          refine .inl ⟨_, rfl, not_inRange_mul overflow ?_⟩
          rw [even, pow_mul]
          exact one_le_pow₀ (Int.add_one_le_iff.mpr (sq_pos_of_ne_zero base))
        · rw [long, ← product]
          apply induction (i - 1) (by omega) _ base
          rw [product]
          exact mul_ne_zero nonzero base
      · rename_i positive odd
        have split : l1.toInt * l2.toInt ^ i = l1.toInt * (l2.toInt ^ 2) ^ (i / 2) := by
          rw [← pow_mul]
          congr 2
          omega
        rw [split]
        rcases zendSignedMultiplyLong_cases arith l2 l2 with
          ⟨dval, double, overflow⟩ | ⟨lval, long, product⟩
        · rw [double]
          rw [← sq] at overflow
          exact .inl ⟨_, rfl, not_inRange_square nonzero (by omega) overflow⟩
        · rw [long, sq, ← product]
          apply induction (i / 2) (by omega) nonzero
          rw [product]
          exact mul_ne_zero base base

/-- A power of longs is a long exactly if it is in the range, and then it is exact. -/
theorem powFunction_long_iff (op1 op2 : BitVec 64)
    (nonneg : 0 ≤ op2.toInt) :
    ((∃ lval, powFunction arith op1 op2 = .long lval) ↔
        InRange (op1.toInt ^ op2.toInt.toNat)) ∧
      ∀ lval, powFunction arith op1 op2 = .long lval →
        lval.toInt = op1.toInt ^ op2.toInt.toNat := by
  have either : (∃ dval, powFunction arith op1 op2 = .double dval ∧
        ¬ InRange (op1.toInt ^ op2.toInt.toNat)) ∨
      ∃ lval, powFunction arith op1 op2 = .long lval ∧
        lval.toInt = op1.toInt ^ op2.toInt.toNat := by
    unfold powFunction
    rw [if_pos nonneg]
    split
    · rename_i zero
      exact .inr ⟨_, rfl, by rw [zero, BitVec.toInt_zero, Int.toNat_zero, pow_zero]; rfl⟩
    rename_i exponent
    have positive : op2.toInt.toNat ≠ 0 := by
      intro zero
      exact exponent (BitVec.eq_of_toInt_eq (by rw [BitVec.toInt_zero]; omega))
    split
    · rename_i zero
      refine .inr ⟨_, rfl, ?_⟩
      rw [zero, BitVec.toInt_zero, zero_pow positive]
    · rename_i base
      have unit : (1#64).toInt = 1 := rfl
      have nonzero : op1.toInt ≠ 0 :=
        fun zero => base (BitVec.eq_of_toInt_eq (zero.trans BitVec.toInt_zero.symm))
      have spec := powLoop_spec arith op2.toInt.toNat (unit.trans_ne one_ne_zero) nonzero
      rwa [unit, one_mul] at spec
  rcases either with ⟨dval, double, overflow⟩ | ⟨lval, long, exact⟩
  · rw [double]
    refine ⟨⟨?_, fun inRange => absurd inRange overflow⟩, fun _ equal => nomatch equal⟩
    intro long
    obtain ⟨_, equal⟩ := long
    cases equal
  · rw [long]
    refine ⟨⟨fun _ => exact ▸ inRange_toInt lval, fun _ => ⟨lval, rfl⟩⟩, ?_⟩
    intro other equal
    cases equal
    exact exact

end Power

/-- The least long is a power of minus two. -/
theorem powFunction_long_min :
    ∃ lval, powFunction ⟨fun _ => 0, fun _ _ => 0, fun _ _ => 0⟩ (-2#64) 63#64 = .long lval ∧
      lval.toInt = -2 ^ 63 := by
  have spec := powFunction_long_iff ⟨fun _ => 0, fun _ _ => 0, fun _ _ => 0⟩ (-2#64) 63#64
    (by decide)
  obtain ⟨lval, long⟩ := spec.1.mpr (by unfold InRange; decide)
  exact ⟨lval, long, spec.2 lval long⟩

end PhpRuntime.Operators
