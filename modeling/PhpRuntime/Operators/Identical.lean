import PhpRuntime.Hash.Comparison
import PhpRuntime.Values.Value

/-! # Strict identity

`is_identical_function` of `Zend/zend_operators.c` on null, booleans, longs, strings and arrays,
with `zend_hash_compare` in its ordered form. Arrays are the addresses of their tables, so that
one table may stand in several places; the recursion counts of the tables are passed through
the calls.
-/

namespace PhpRuntime.Operators

open Hash Hash.HashTable Linked Function

/-- A zval of the modelled types. -/
inductive Operand
  | null
  | bool (b : Bool)
  | long (n : BitVec 64)
  | string (bytes : List UInt8)
  | array (table : Nat)
  deriving DecidableEq

/-- `hash_zval_identical_function` around `is_identical_function` -/
def hashZvalIdentical (identical : Operand → Operand → Protection → Option (Bool × Protection)) :
    Compar Operand := fun z1 z2 state =>
  (identical z1 z2 state).map fun answer => (if answer.1 then 0 else 1, answer.2)

/-- `is_identical_function`; arrays may be nested as deep as `fuel` says. -/
def isIdenticalFunction (tables : Nat → HashTable Operand) :
    Nat → Operand → Operand → Protection → Option (Bool × Protection)
  | _, .null, .null, state => some (true, state)
  | _, .bool a, .bool b, state => some (a == b, state)
  | _, .long a, .long b, state => some (a == b, state)
  | _, .string a, .string b, state => some (a.length == b.length && memcmp a b == 0, state)
  | fuel, .array table1, .array table2, state =>
      if table1 = table2 then
        some (true, state)
      else
        match fuel with
        | 0 => none
        | fuel + 1 =>
            (zendHashCompareWith (hashZvalIdentical (isIdenticalFunction tables fuel)) state
              table1 table2 (tables table1) (tables table2) true).map
              fun answer => (answer.1 == 0, answer.2)
  | _, _, _, state => some (false, state)

/-! ## Trees -/

/-- A key of a tree; a string has the terminator that the table stores with it. -/
def treeKey : Hash.Key → Values.Key
  | .index h => .long h
  | .string bytes => .string bytes

/-- The value of an operand, given those of the tables. -/
def valueOf (tree : Nat → Values.Value) : Operand → Values.Value
  | .null => .null
  | .bool b => .bool b
  | .long n => .long n
  | .string bytes => .string bytes
  | .array table => tree table

/-- The key and the value of a bucket. -/
def entry (tree : Nat → Values.Value) (ht : HashTable Operand) (p : Nat) :
    Values.Key × Values.Value := (treeKey (ht.key p), valueOf tree (ht.pData p))

/-- The table of an array is one of the finite ones. -/
def Lives (live : Nat → Prop) : Operand → Prop
  | .array table => live table
  | _ => True

/-- The live tables are finite nested arrays, with the trees `tree`. -/
structure Nested (tables : Nat → HashTable Operand) (live : Nat → Prop)
    (tree : Nat → Values.Value) : Prop where
  holds : ∀ table, live table → ∃ order, Listed (tables table) order ∧ order.length < 2 ^ 32 ∧
    (∀ p ∈ order, (tables table).nKeyLength p < 2 ^ 32 ∧ Lives live ((tables table).pData p)) ∧
    tree table = .array (order.map (entry tree (tables table)))

/-! ## Keys -/

theorem treeKey_injective : Injective treeKey := by
  intro left right equal
  cases left <;> cases right <;> cases equal <;> rfl

theorem memcmp_eq_zero {left right : List UInt8} (same : left.length = right.length) :
    memcmp left right = 0 ↔ left = right := by
  induction left generalizing right with
  | nil =>
      rw [List.length_eq_zero_iff.mp same.symm]
      exact ⟨fun _ => rfl, fun _ => rfl⟩
  | cons a as induction =>
      cases right with
      | nil => cases same
      | cons b bs =>
          have tails := induction (Nat.succ.inj same)
          rw [memcmp, List.cons.injEq]
          split
          · rename_i equal
            simp only [equal, true_and, tails]
          · rename_i different
            have apart : a.toNat ≠ b.toNat := fun equal => different (UInt8.toNat_inj.mp equal)
            constructor
            · intro zero
              omega
            · intro equal
              exact absurd equal.1 different

theorem compareKeys_eq_zero {ht1 ht2 : HashTable α} {p1 p2 : Nat} (keyed1 : ht1.Keyed p1)
    (keyed2 : ht2.Keyed p2) (short1 : ht1.nKeyLength p1 < 2 ^ 32)
    (short2 : ht2.nKeyLength p2 < 2 ^ 32) :
    compareKeys ht1 ht2 p1 p2 = 0 ↔ ht1.key p1 = ht2.key p2 := by
  have lengths := uintDifference_eq_zero short1 short2
  unfold compareKeys HashTable.key
  by_cases index1 : ht1.nKeyLength p1 = 0
  · by_cases index2 : ht2.nKeyLength p2 = 0
    · rw [if_pos ⟨index1, index2⟩, if_pos index1, if_pos index2, Hash.Key.index.injEq]
      split_ifs <;> simp_all
    · have nonzero : uintDifference (ht1.nKeyLength p1) (ht2.nKeyLength p2) ≠ 0 := by
        rw [ne_eq, lengths]
        omega
      rw [if_neg (fun both => index2 both.2), if_pos index1, if_neg index2]
      dsimp only
      rw [if_pos nonzero]
      exact iff_of_false nonzero fun equal => nomatch equal
  · have bytes1 := (keyed1 index1).1
    rw [if_neg (fun both => index1 both.1), if_neg index1]
    by_cases same : ht1.nKeyLength p1 = ht2.nKeyLength p2
    · have index2 : ht2.nKeyLength p2 ≠ 0 := same ▸ index1
      have bytes2 := (keyed2 index2).1
      dsimp only
      rw [if_neg (not_not.mpr (lengths.mpr same)), if_neg index2, Hash.Key.string.injEq,
        List.take_of_length_le bytes1.le, List.take_of_length_le (by omega)]
      exact memcmp_eq_zero (by omega)
    · have nonzero := fun zero => same (lengths.mp zero)
      dsimp only
      rw [if_pos nonzero]
      constructor
      · exact fun zero => absurd zero nonzero
      · intro equal
        by_cases index2 : ht2.nKeyLength p2 = 0
        · rw [if_pos index2] at equal
          cases equal
        · rw [if_neg index2, Hash.Key.string.injEq] at equal
          have bytes2 := (keyed2 index2).1
          rw [equal] at bytes1
          omega

/-! ## The walk over two lists -/

section Walk

variable (tree : Nat → Values.Value) {ht1 ht2 : HashTable Operand}
  {identical : Operand → Operand → Protection → Option (Bool × Protection)} {state : Protection}

/-- The loop returns zero exactly if the elements agree position by position. -/
theorem compareLoop_spec {order1 order2 : List Nat} {last1 last2 : Option Nat} {fuel : Nat}
    (linked1 : Segment ht1.pListNext ht1.pListLast last1 order1 none)
    (linked2 : Segment ht2.pListNext ht2.pListLast last2 order2 none)
    (same : order1.length = order2.length) (enough : order1.length ≤ fuel)
    (keys : ∀ p ∈ order1, ∀ q ∈ order2,
      (compareKeys ht1 ht2 p q = 0 ↔ ht1.key p = ht2.key q))
    (spec : ∀ p ∈ order1, ∀ q ∈ order2, ∃ answer,
      identical (ht1.pData p) (ht2.pData q) state = some (answer, state) ∧
        (answer = true ↔ valueOf tree (ht1.pData p) = valueOf tree (ht2.pData q))) :
    ∃ result, compareLoop ht1 ht2 (hashZvalIdentical identical) true fuel order1.head?
        order2.head? state = some (result, state) ∧
      (result = 0 ↔ order1.map (entry tree ht1) = order2.map (entry tree ht2)) := by
  induction order1 generalizing order2 last1 last2 fuel with
  | nil =>
      rw [List.length_eq_zero_iff.mp same.symm]
      refine ⟨0, ?_, by simp⟩
      cases fuel <;> rfl
  | cons p rest induction =>
      obtain ⟨q, others, rfl⟩ := List.exists_cons_of_length_eq_add_one same.symm
      obtain ⟨fuel, rfl⟩ := Nat.exists_eq_add_one_of_ne_zero
        (Nat.ne_of_gt (Nat.lt_of_lt_of_le (Nat.succ_pos _) enough))
      obtain ⟨-, next1, tail1⟩ := segment_cons.mp linked1
      obtain ⟨-, next2, tail2⟩ := segment_cons.mp linked2
      have key := keys p List.mem_cons_self q List.mem_cons_self
      rw [List.map_cons, List.map_cons, List.cons.injEq]
      simp only [List.head?_cons, compareLoop, comparePartner, if_true, Option.bind_eq_bind,
        Option.bind_some]
      by_cases sameKey : compareKeys ht1 ht2 p q ≠ 0
      · rw [if_pos sameKey]
        refine ⟨_, rfl, iff_of_false sameKey ?_⟩
        intro equal
        exact sameKey (key.mpr (treeKey_injective (congrArg Prod.fst equal.1)))
      rw [if_neg sameKey]
      have keyEqual := key.mp (not_not.mp sameKey)
      obtain ⟨answer, found, equal⟩ := spec p List.mem_cons_self q List.mem_cons_self
      have heads : entry tree ht1 p = entry tree ht2 q ↔ answer = true := by
        rw [equal, entry, entry, keyEqual, Prod.mk.injEq, and_iff_right rfl]
      simp only [hashZvalIdentical, found, Option.map_some, Option.bind_some]
      cases answer with
      | false =>
          exact ⟨1, rfl, iff_of_false one_ne_zero fun both => Bool.false_ne_true (heads.mp both.1)⟩
      | true =>
          obtain ⟨result, looped, zero⟩ := induction tail1 tail2 (Nat.succ.inj same)
            (Nat.le_of_succ_le_succ enough)
            (fun a inA b inB => keys a (.tail _ inA) b (.tail _ inB))
            (fun a inA b inB => spec a (.tail _ inA) b (.tail _ inB))
          refine ⟨result, ?_, by rw [zero, heads, and_iff_right rfl]⟩
          rw [if_pos rfl, if_neg (not_not.mpr rfl), next1, next2, Option.or_none, Option.or_none]
          exact looped

end Walk

/-! ## Recursion counts -/

/-- A table above the operands has been entered once for each operand it is above of. -/
def Guarded (live : Nat → Prop) (tree : Nat → Values.Value) (state : Protection)
    (depth1 depth2 : Nat) : Prop :=
  ∀ table, live table → state.nApplyCount table ≤
    1 + (if depth1 < (tree table).depth then 1 else 0) +
      if depth2 < (tree table).depth then 1 else 0

theorem protect_of_lt {state : Protection} {table : Nat} (few : state.nApplyCount table < 3) :
    ∃ after, state.protect table = some after ∧
      ∀ other, after.nApplyCount other ≤
        state.nApplyCount other + if other = table then 1 else 0 := by
  unfold Protection.protect
  split
  · rw [if_neg (by omega)]
    refine ⟨_, rfl, ?_⟩
    intro other
    dsimp only
    by_cases same : other = table
    · rw [same, update_self, if_pos rfl]
    · rw [update_of_ne same]
      omega
  · exact ⟨state, rfl, fun other => Nat.le_add_right _ _⟩

section Spec

variable {tables : Nat → HashTable Operand} {live : Nat → Prop} {tree : Nat → Values.Value}

/-- The two tables may be entered, and their elements then are as guarded as they were. -/
theorem Guarded.protectBoth {state : Protection} {table1 table2 : Nat}
    (guarded : Guarded live tree state (tree table1).depth (tree table2).depth)
    (live1 : live table1) (live2 : live table2) (different : table1 ≠ table2) :
    ∃ inner, state.protectBoth table1 table2 = some inner ∧
      ∀ depth1 < (tree table1).depth, ∀ depth2 < (tree table2).depth,
        Guarded live tree inner depth1 depth2 := by
  have count1 := guarded table1 live1
  have count2 := guarded table2 live2
  rw [if_neg (Nat.lt_irrefl _)] at count1 count2
  obtain ⟨middle, first, counts1⟩ := protect_of_lt (show state.nApplyCount table1 < 3 by
    split at count1 <;> omega)
  have kept := counts1 table2
  rw [if_neg different.symm] at kept
  obtain ⟨inner, second, counts2⟩ := protect_of_lt (show middle.nApplyCount table2 < 3 by
    split at count2 <;> omega)
  refine ⟨inner, ?_, ?_⟩
  · rw [Protection.protectBoth, first]
    exact second
  · intro depth1 less1 depth2 less2 table isLive
    have before := guarded table isLive
    have after1 := counts1 table
    have after2 := counts2 table
    by_cases same1 : table = table1
    · subst same1
      rw [if_pos less1]
      rw [if_neg different] at after2
      rw [if_pos rfl] at after1
      split_ifs at before ⊢ <;> omega
    · rw [if_neg same1] at after1
      by_cases same2 : table = table2
      · subst same2
        rw [if_pos less2]
        rw [if_pos rfl] at after2
        split_ifs at before ⊢ <;> omega
      · rw [if_neg same2] at after2
        split_ifs at before ⊢ <;> omega

theorem depth_of_entry {order : List Nat} {ht : HashTable Operand} {p : Nat} (member : p ∈ order) :
    (valueOf tree (ht.pData p)).depth <
      (Values.Value.array (order.map (entry tree ht))).depth := by
  have inside : entry tree ht p ∈ order.map (entry tree ht) := List.mem_map_of_mem member
  rw [Values.Value.depth]
  exact Nat.lt_succ_of_le (Values.Value.depth_le_depthAll inside)

/-- Two tables are compared element by element. -/
theorem zendHashCompareWith_spec
    {identical : Operand → Operand → Protection → Option (Bool × Protection)}
    (nested : Nested tables live tree) {table1 table2 : Nat} (live1 : live table1)
    (live2 : live table2) {state inner : Protection}
    (entered : state.protectBoth table1 table2 = some inner)
    (spec : ∀ op1 op2, Lives live op1 → Lives live op2 →
      (valueOf tree op1).depth < (tree table1).depth →
      (valueOf tree op2).depth < (tree table2).depth →
      ∃ answer, identical op1 op2 inner = some (answer, inner) ∧
        (answer = true ↔ valueOf tree op1 = valueOf tree op2)) :
    ∃ result, zendHashCompareWith (hashZvalIdentical identical) state table1 table2
        (tables table1) (tables table2) true = some (result, state) ∧ (result = 0 ↔ tree table1 = tree table2) := by
  obtain ⟨order1, listed1, few1, elements1, tree1⟩ := nested.holds table1 live1
  obtain ⟨order2, listed2, few2, elements2, tree2⟩ := nested.holds table2 live2
  have restored := Protection.unprotectBoth_eq entered
  have counts : uintDifference (tables table1).nNumOfElements (tables table2).nNumOfElements = 0 ↔
      order1.length = order2.length := by
    rw [listed1.count, listed2.count, Nat.mod_eq_of_lt few1, Nat.mod_eq_of_lt few2]
    exact uintDifference_eq_zero few1 few2
  have trees : tree table1 = tree table2 ↔ order1.map (entry tree (tables table1)) =
      order2.map (entry tree (tables table2)) := by rw [tree1, tree2, Values.Value.array.injEq]
  simp only [zendHashCompareWith, entered, Option.bind_eq_bind, Option.bind_some, if_true]
  split
  · rename_i different
    refine ⟨_, by rw [restored], iff_of_false different ?_⟩
    intro equal
    have lengths := congrArg List.length (trees.mp equal)
    simp only [List.length_map] at lengths
    exact different (counts.mpr lengths)
  · rename_i same
    obtain ⟨result, looped, zero⟩ := compareLoop_spec tree
      listed1.linked listed2.linked (counts.mp (not_not.mp same)) listed1.length_le
      (fun p inP q inQ => compareKeys_eq_zero (listed1.keyed p inP) (listed2.keyed q inQ)
        (elements1 p inP).1 (elements2 q inQ).1)
      (fun p inP q inQ => spec _ _ (elements1 p inP).2 (elements2 q inQ).2
        (by rw [tree1]; exact depth_of_entry inP) (by rw [tree2]; exact depth_of_entry inQ))
    rw [listed1.head, listed2.head, looped]
    exact ⟨result, by rw [Option.bind_some, restored], zero.trans trees.symm⟩

/-- Operands that are not both arrays. -/
theorem isIdenticalFunction_scalar (nested : Nested tables live tree) (fuel : Nat)
    {op1 op2 : Operand} (state : Protection) (lives1 : Lives live op1) (lives2 : Lives live op2)
    (scalar : ∀ table1 table2, ¬ (op1 = .array table1 ∧ op2 = .array table2)) :
    ∃ answer, isIdenticalFunction tables fuel op1 op2 state = some (answer, state) ∧
      (answer = true ↔ valueOf tree op1 = valueOf tree op2) := by
  have isArray : ∀ table, live table → ∃ entries, tree table = .array entries := by
    intro table isLive
    obtain ⟨order, -, -, -, equal⟩ := nested.holds table isLive
    exact ⟨_, equal⟩
  cases op1 with
  | array table1 =>
      obtain ⟨entries, equal⟩ := isArray table1 lives1
      cases op2 with
      | array table2 => exact absurd ⟨rfl, rfl⟩ (scalar table1 table2)
      | _ => simp [isIdenticalFunction, valueOf, equal]
  | string a =>
      cases op2 with
      | array table2 =>
          obtain ⟨entries, equal⟩ := isArray table2 lives2
          simp [isIdenticalFunction, valueOf, equal]
      | string b =>
          refine ⟨_, by rw [isIdenticalFunction], ?_⟩
          simp only [Bool.and_eq_true, beq_iff_eq, valueOf, Values.Value.string.injEq]
          constructor
          · exact fun both => (memcmp_eq_zero both.1).mp both.2
          · intro equal
            exact ⟨congrArg List.length equal, (memcmp_eq_zero (congrArg _ equal)).mpr equal⟩
      | _ => simp [isIdenticalFunction, valueOf]
  | _ =>
      cases op2 with
      | array table2 =>
          obtain ⟨entries, equal⟩ := isArray table2 lives2
          simp [isIdenticalFunction, valueOf, equal]
      | _ => simp [isIdenticalFunction, valueOf]

/-- Identity is equality of trees, and the recursion counts are left as they were. -/
theorem isIdenticalFunction_spec (nested : Nested tables live tree) {fuel : Nat}
    {op1 op2 : Operand} {state : Protection} (lives1 : Lives live op1) (lives2 : Lives live op2)
    (enough : (valueOf tree op1).depth ≤ fuel)
    (guarded : Guarded live tree state (valueOf tree op1).depth (valueOf tree op2).depth) :
    ∃ answer, isIdenticalFunction tables fuel op1 op2 state = some (answer, state) ∧
      (answer = true ↔ valueOf tree op1 = valueOf tree op2) := by
  induction fuel using Nat.strong_induction_on generalizing op1 op2 state with
  | _ fuel induction =>
      by_cases arrays : ∃ table1 table2, op1 = .array table1 ∧ op2 = .array table2
      · obtain ⟨table1, table2, rfl, rfl⟩ := arrays
        change (tree table1).depth ≤ fuel at enough
        obtain ⟨fuel, rfl⟩ : ∃ less, fuel = less + 1 := by
          obtain ⟨order, -, -, -, equal⟩ := nested.holds table1 lives1
          rw [equal, Values.Value.depth] at enough
          exact ⟨fuel - 1, by omega⟩
        rw [isIdenticalFunction]
        split
        · rename_i same
          exact ⟨true, rfl, iff_of_true rfl (congrArg tree same)⟩
        · rename_i different
          obtain ⟨inner, entered, deeper⟩ := guarded.protectBoth lives1 lives2 different
          obtain ⟨result, compared, zero⟩ := zendHashCompareWith_spec nested lives1 lives2
            entered fun a b livesA livesB lessA lessB =>
              induction fuel (Nat.lt_succ_self fuel) livesA livesB (by omega)
                (deeper _ lessA _ lessB)
          rw [compared]
          exact ⟨_, rfl, by rw [beq_iff_eq, zero]; rfl⟩
      · exact isIdenticalFunction_scalar nested fuel state lives1 lives2
          fun table1 table2 both => arrays ⟨table1, table2, both⟩

end Spec

/-- Strict identity of finite nested arrays is equality of their trees, and so an equivalence
relation. No table is entered when the comparison starts. -/
theorem isIdenticalFunction_iff_tree (tables : Nat → HashTable Operand) (live : Nat → Prop)
    (tree : Nat → Values.Value) (nested : Nested tables live tree) (state : Protection)
    (idle : ∀ table, live table → state.nApplyCount table ≤ 1) :
    (∀ op1 op2 fuel, Lives live op1 → Lives live op2 → (valueOf tree op1).depth ≤ fuel →
      ∃ answer, isIdenticalFunction tables fuel op1 op2 state = some (answer, state) ∧
        (answer = true ↔ valueOf tree op1 = valueOf tree op2)) ∧
      Equivalence fun op1 op2 : { op // Lives live op } =>
        isIdenticalFunction tables (valueOf tree op1.1).depth op1.1 op2.1 state =
          some (true, state) := by
  have spec : ∀ op1 op2 fuel, Lives live op1 → Lives live op2 →
      (valueOf tree op1).depth ≤ fuel →
      ∃ answer, isIdenticalFunction tables fuel op1 op2 state = some (answer, state) ∧
        (answer = true ↔ valueOf tree op1 = valueOf tree op2) := by
    intro op1 op2 fuel lives1 lives2 enough
    apply isIdenticalFunction_spec nested lives1 lives2 enough
    intro table isLive
    have few := idle table isLive
    omega
  have same : ∀ op1 op2 : { op // Lives live op },
      isIdenticalFunction tables (valueOf tree op1.1).depth op1.1 op2.1 state =
        some (true, state) ↔ valueOf tree op1.1 = valueOf tree op2.1 := by
    intro op1 op2
    obtain ⟨answer, answered, equal⟩ := spec op1.1 op2.1 _ op1.2 op2.2 le_rfl
    rw [answered, ← equal]
    simp
  refine ⟨spec, ?_, ?_, ?_⟩
  · exact fun op => (same op op).mpr rfl
  · exact fun {op1 op2} identical => (same op2 op1).mpr ((same op1 op2).mp identical).symm
  · intro op1 op2 op3 first second
    exact (same op1 op3).mpr (((same op1 op2).mp first).trans ((same op2 op3).mp second))

/-- The elements of four tables: `[5, [7, 8]]` and `[5, [7, 9]]`. -/
def twoElements : Nat → Operand × Operand
  | 0 => (.long 5, .array 1)
  | 1 => (.long 7, .long 8)
  | 2 => (.long 5, .array 3)
  | _ => (.long 7, .long 9)

def twoTrees : Nat → Values.Value
  | 0 => .array [(.long 0, .long 5), (.long 1, .array [(.long 0, .long 7), (.long 1, .long 8)])]
  | 1 => .array [(.long 0, .long 7), (.long 1, .long 8)]
  | 2 => .array [(.long 0, .long 5), (.long 1, .array [(.long 0, .long 7), (.long 1, .long 9)])]
  | _ => .array [(.long 0, .long 7), (.long 1, .long 9)]

/-- A table to which the two elements have been appended. -/
def twoAppended (table : Nat) : HashTable Operand :=
  let start := (blankMemory Operand.null).zendHashInit 8
  (playFitting start
    [.indexUpdateOrNextInsert 0 (twoElements table).1 .nextInsert,
      .indexUpdateOrNextInsert 0 (twoElements table).2 .nextInsert]).getD start

theorem twoAppended_eq (table : Fin 4) :
    (twoAppended table).elements = [0, 1]
    ∧ ((twoAppended table).key 0 = .index 0 ∧ (twoAppended table).key 1 = .index 1)
    ∧ ((twoAppended table).nKeyLength 0 = 0 ∧ (twoAppended table).nKeyLength 1 = 0)
    ∧ (twoAppended table).pData 0 = (twoElements table).1
    ∧ (twoAppended table).pData 1 = (twoElements table).2 := by
  revert table
  decide +kernel

theorem twoAppended_listed (table : Nat) : ∃ order, Listed (twoAppended table) order := by
  rw [twoAppended]
  cases played : playFitting ((blankMemory Operand.null).zendHashInit 8)
      [.indexUpdateOrNextInsert 0 (twoElements table).1 .nextInsert,
        .indexUpdateOrNextInsert 0 (twoElements table).2 .nextInsert] with
  | none => exact ⟨_, (zendHashInit_consistent _ 8).toListed⟩
  | some ht => exact ⟨_, (proper_of_reachable (reachable_of_play rfl played)).toListed⟩

theorem twoAppended_nested : Nested twoAppended (· < 4) twoTrees := by
  refine ⟨fun table small => ⟨[0, 1], ?_⟩⟩
  obtain ⟨elements, ⟨key0, key1⟩, ⟨length0, length1⟩, data0, data1⟩ := twoAppended_eq ⟨table, small⟩
  obtain ⟨order, listed⟩ := twoAppended_listed table
  rw [← listed.elements_eq] at listed
  dsimp only at elements key0 key1 length0 length1 data0 data1
  rw [elements] at listed
  refine ⟨listed, by decide, ?_, ?_⟩
  · rw [List.forall_mem_cons, List.forall_mem_singleton, length0, length1, data0, data1]
    clear listed elements key0 key1 length0 length1 data0 data1
    match table, small with
    | 0, _ | 1, _ | 2, _ | 3, _ => simp [twoElements, Lives]
  · simp only [List.map_cons, List.map_nil, entry, key0, key1, data0, data1]
    clear listed elements key0 key1 length0 length1 data0 data1
    match table, small with
    | 0, _ | 1, _ | 2, _ | 3, _ => rfl

/-- Two arrays that differ in a nested one. -/
theorem isIdenticalFunction_nested :
    ∃ answer, isIdenticalFunction twoAppended 2 (.array 0) (.array 2) unlocked =
        some (answer, unlocked) ∧ (answer = true ↔ twoTrees 0 = twoTrees 2) :=
  (isIdenticalFunction_iff_tree twoAppended (· < 4) twoTrees twoAppended_nested unlocked
    fun _ _ => Nat.zero_le _).1 (.array 0) (.array 2) 2 (show 0 < 4 by decide)
    (show 2 < 4 by decide) (by decide)

end PhpRuntime.Operators
