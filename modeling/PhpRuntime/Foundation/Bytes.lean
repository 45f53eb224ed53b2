import PhpRuntime.Foundation.Integers

/-! # Bytes in memory

Numbers as bytes, the least significant one first, and what writing or moving bytes does to what is
read elsewhere.
-/

namespace PhpRuntime.Bytes

/-! ## Numbers -/

def littleEndian : Nat → Nat → List UInt8
  | 0, _ => []
  | width + 1, n => UInt8.ofNat n :: littleEndian width (n / 256)

def ofLittleEndian : List UInt8 → Nat
  | [] => 0
  | byte :: bytes => byte.toNat + 256 * ofLittleEndian bytes

theorem length_littleEndian (width n : Nat) : (littleEndian width n).length = width := by
  induction width generalizing n with
  | zero => rfl
  | succ width induction => rw [littleEndian, List.length_cons, induction]

theorem ofLittleEndian_littleEndian {width n : Nat} (small : n < 256 ^ width) :
    ofLittleEndian (littleEndian width n) = n := by
  induction width generalizing n with
  | zero =>
      rw [Nat.pow_zero] at small
      rw [littleEndian, ofLittleEndian]
      omega
  | succ width induction =>
      have rest : n / 256 < 256 ^ width := by
        rw [Nat.pow_succ'] at small
        exact Nat.div_lt_of_lt_mul small
      rw [littleEndian, ofLittleEndian, induction rest, UInt8.toNat_ofNat']
      omega

/-! ## Memory -/

variable {mem : Int → UInt8} {p : Int} {n : Nat}

/-- The bytes from a position on. -/
def slice (mem : Int → UInt8) (pos : Int) (n : Nat) : List UInt8 :=
  (List.range n).map fun k : Nat => mem (pos + k)

def write (mem : Int → UInt8) (pos : Int) (bytes : List UInt8) : Int → UInt8 := fun i =>
  if pos ≤ i then (bytes[(i - pos).toNat]?).getD (mem i) else mem i

def move (mem : Int → UInt8) (dst src len : Int) : Int → UInt8 := fun i =>
  if dst ≤ i ∧ i < dst + len then mem (i - dst + src) else mem i

theorem slice_congr {mem' : Int → UInt8} {q : Int}
    (same : ∀ k : Nat, k < n → mem' (q + k) = mem (p + k)) : slice mem' q n = slice mem p n :=
  List.map_congr_left fun k member => same k (List.mem_range.mp member)

theorem slice_write (mem : Int → UInt8) (pos : Int) (bytes : List UInt8) :
    slice (write mem pos bytes) pos bytes.length = bytes := by
  refine List.ext_getElem (by simp [slice]) fun k inside inside' => ?_
  simp [slice, write, inside']

theorem slice_write_other {pos : Int} {bytes : List UInt8}
    (apart : p + n ≤ pos ∨ pos + bytes.length ≤ p) :
    slice (write mem pos bytes) p n = slice mem p n := by
  refine slice_congr fun k less => ?_
  rw [write]
  split
  · rw [List.getElem?_eq_none (by omega), Option.getD_none]
  · rfl

theorem slice_move {dst src len : Int} (first : dst ≤ p) (last : p + n ≤ dst + len) :
    slice (move mem dst src len) p n = slice mem (p - dst + src) n := by
  refine slice_congr fun k less => ?_
  rw [move, if_pos (by omega)]
  congr 1
  omega

theorem slice_move_other {dst src len : Int} (before : p + n ≤ dst) :
    slice (move mem dst src len) p n = slice mem p n := by
  refine slice_congr fun k less => ?_
  rw [move, if_neg (by omega)]

end PhpRuntime.Bytes
