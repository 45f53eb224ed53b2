import Mathlib.Algebra.Group.Nat.Defs
import PhpRuntime.Foundation.Exchange

/-! The sort of `Zend/zend_qsort.c`.

Pointers into the array are byte offsets from `base`. The array itself is any
`ElementArray`, and the comparison may keep a state of its own, so that it need not give
the same answer twice. A function returns `none` where an address is used that is not the
one of an element, where the stacks have no slot left, and where a loop has run for longer
than its bound. -/

namespace PhpRuntime.Sort

open PhpRuntime.Exchange

/-- The number of slots of `begin_stack` and of `end_stack`. -/
def qsortStackSize : Nat := 64

section Qsort

variable (array : ElementArray M α) (compare : σ → α → α → Int × σ)

/-- `compare(a, b)` on two addresses. -/
def compareAt (m : M) (s : σ) (a b : Int) : Option (Int × σ) := do
  let x ← array.load m a
  let y ← array.load m b
  some (compare s x y)

/-- `for (; seg1 < seg2 && compare(begin, seg1) > 0; seg1 += siz);` -/
def scanUp (m : M) (begin seg2 : Int) : Nat → Int → σ → Option (Int × σ)
  | 0, _, _ => none
  | fuel + 1, seg1, s =>
      if seg1 < seg2 then do
        let (result, s) ← compareAt array compare m s begin seg1
        if 0 < result then scanUp m begin seg2 fuel (seg1 + array.siz) s else some (seg1, s)
      else
        some (seg1, s)

/-- `for (; seg2 >= seg1 && compare(seg2, begin) > 0; seg2 -= siz);` -/
def scanDown (m : M) (begin seg1 : Int) : Nat → Int → σ → Option (Int × σ)
  | 0, _, _ => none
  | fuel + 1, seg2, s =>
      if seg1 ≤ seg2 then do
        let (result, s) ← compareAt array compare m s seg2 begin
        if 0 < result then scanDown m begin seg1 fuel (seg2 - array.siz) s else some (seg2, s)
      else
        some (seg2, s)

/-- The two loops one after the other, each of at most `bound` rounds. -/
def scanBoth (bound : Nat) (m : M) (begin seg1 seg2 : Int) (s : σ) :
    Option (Int × Int × σ) := do
  let (seg1, s) ← scanUp array compare m begin seg2 bound seg1 s
  let (seg2, s) ← scanDown array compare m begin seg1 bound seg2 s
  some (seg1, seg2, s)

/-- The `while (1)` loop. -/
def partitionLoop (bound : Nat) (begin : Int) : Nat → M → Int → Int → σ →
    Option (M × Int × σ)
  | 0, _, _, _, _ => none
  | fuel + 1, m, seg1, seg2, s => do
      let (seg1, seg2, s) ← scanBoth array compare bound m begin seg1 seg2 s
      if seg2 ≤ seg1 then
        some (m, seg2, s)
      else do
        let m ← array.swap m seg1 seg2
        partitionLoop bound begin fuel m (seg1 + array.siz) (seg2 - array.siz) s

/-- `offset - (offset % siz)` for the `uint offset = (end - begin) >> 1`. -/
def pivotOffset (siz : Nat) (begin last : Int) : Nat :=
  let offset := ((last - begin) / 2).toNat % 2 ^ 32
  offset - offset % siz

/-- The body of `while (begin < end)` up to the choice of the part to go on with. -/
def partition (bound : Nat) (m : M) (begin last : Int) (s : σ) : Option (M × Int × σ) := do
  let m ← array.swap m begin (begin + pivotOffset array.siz begin last)
  let (m, seg2, s) ← partitionLoop array compare bound begin bound m (begin + array.siz) last s
  let m ← array.swap m begin seg2
  some (m, seg2, s)

/-- Writing the slot `loop` of the two stacks, and `loop++`. The pending segments are those
in the slots below `loop`, the last one first. -/
def push (pending : List (Int × Int)) (segment : Int × Int) : Option (List (Int × Int)) :=
  if pending.length < qsortStackSize then some (segment :: pending) else none

/-- The two outer loops, from the test `begin < end` on. -/
def qsortLoop (bound : Nat) : Nat → List (Int × Int) → Int → Int → M → σ → Option (M × σ)
  | 0, _, _, _, _, _ => none
  | fuel + 1, pending, begin, last, m, s =>
      if begin < last then do
        let (m, seg2, s) ← partition array compare bound m begin last s
        if seg2 - begin ≤ last - seg2 then do
          let pending ← if seg2 + array.siz < last then push pending (seg2 + array.siz, last)
            else some pending
          qsortLoop bound fuel pending begin (seg2 - array.siz) m s
        else do
          let pending ← if begin < seg2 - array.siz then push pending (begin, seg2 - array.siz)
            else some pending
          qsortLoop bound fuel pending (seg2 + array.siz) last m s
      else
        -- `--loop`, and the end if `loop` is negative
        match pending with
        | [] => some (m, s)
        | (begin, last) :: pending => qsortLoop bound fuel pending begin last m s

/-- `zend_qsort_r`; no loop runs more than `2 * nmemb + 1` times. -/
def zendQsortR (m : M) (nmemb : Nat) (s : σ) : Option (M × σ) :=
  qsortLoop array compare (nmemb + 1) (2 * nmemb + 1) [] 0 (((nmemb : Int) - 1) * array.siz) m s

end Qsort

/-- `zend_qsort`, whose comparison depends on the two elements only. -/
def zendQsort (array : ElementArray M α) (compare : α → α → Int) (m : M) (nmemb : Nat) :
    Option M := do
  let (m, _) ← zendQsortR array (fun s x y => (compare x y, s)) m nmemb ()
  some m

/-! ### Arrays of bytes -/

/-- The `width` bytes at an offset. -/
def readBytes (memory : List UInt8) (at_ width : Nat) : List UInt8 :=
  (memory.drop at_).take width

def writeBytes (memory : List UInt8) (at_ : Nat) (bytes : List UInt8) : List UInt8 :=
  memory.take at_ ++ bytes ++ memory.drop (at_ + bytes.length)

/-- `t = *a; *a = *b; *b = t;` for values of `width` bytes. -/
def swapWidth (width : Nat) (memory : List UInt8) (a b : Nat) : List UInt8 :=
  let t := readBytes memory a width
  let memory := writeBytes memory a (readBytes memory b width)
  writeBytes memory b t

/-- `for (; i <= siz; i += width)`: the memory, and `i` and the two pointers afterwards. -/
def swapLoop (width siz : Nat) : Nat → Nat → Nat → Nat → List UInt8 →
    Option (List UInt8 × Nat × Nat × Nat)
  | 0, _, _, _, _ => none
  | fuel + 1, i, a, b, memory =>
      if i ≤ siz then
        swapLoop width siz fuel (i + width) (a + width) (b + width) (swapWidth width memory a b)
      else
        some (memory, i, a, b)

/-- `_zend_qsort_swap`: one `int` after the other, and then the bytes that are left. -/
def zendQsortSwap (memory : List UInt8) (a b siz : Nat) : Option (List UInt8) := do
  let (memory, i, a, b) ← swapLoop 4 siz (siz + 1) 4 a b memory
  let (memory, _) ← swapLoop 1 siz (siz + 1) (i - 4 + 1) a b memory
  some memory

end PhpRuntime.Sort
