import Mathlib.Data.List.Nodup
import Mathlib.Data.List.Perm.Subperm
import PhpRuntime.Foundation.Silent

/-! # Jumps in pass 3 of the optimizer

The cases of `ZEND_JMP`, `ZEND_JMPZ`, `ZEND_JMPNZ` and `ZEND_JMPZNZ` in
`ext/opcache/Optimizer/pass3.c`. All other opcodes of an op array are opaque to them.
-/

namespace PhpRuntime.Opcache.JumpThreading

open Silent

/-- `op1_type` -/
inductive OpType
  | const | tmpVar | var | unused | cv
  deriving DecidableEq

def OpType.bits : OpType → Nat
  | const => 1
  | tmpVar => 2
  | var => 4
  | unused => 8
  | cv => 16

inductive Opcode (α : Type)
  | nop | jmp | jmpz | jmpnz | jmpznz
  | other (code : α)
  deriving DecidableEq

/-- An operand that is the place of an opcode is its number; `op1` is that of a variable in a
conditional jump. -/
structure Op (α : Type) where
  opcode : Opcode α
  op1Type : OpType
  op1 : Nat
  op2 : Nat
  extendedValue : Nat

structure OpArray (α : Type) where
  opcodes : Nat → Op α
  last : Nat
  hasFinallyBlock : Bool

variable {α : Type}

/-- The fields that hold the target of a jump. -/
inductive Field
  | op1 | op2 | extendedValue

def Op.get (op : Op α) : Field → Nat
  | .op1 => op.op1
  | .op2 => op.op2
  | .extendedValue => op.extendedValue

def Op.set (op : Op α) (field : Field) (target : Nat) : Op α :=
  match field with
  | .op1 => { op with op1 := target }
  | .op2 => { op with op2 := target }
  | .extendedValue => { op with extendedValue := target }

/-- `MAKE_NOP` -/
def Op.makeNop (op : Op α) : Op α :=
  { op with opcode := .nop, op1Type := .unused, op1 := 0, op2 := 0 }

/-- `SAME_VAR` for the first operands of two opcodes. -/
def sameVar (op other : Op α) : Bool :=
  ((op.op1Type.bits &&& OpType.var.bits != 0 && other.op1Type.bits &&& OpType.var.bits != 0) ||
    (op.op1Type == .tmpVar && other.op1Type == .tmpVar)) && op.op1 == other.op1

/-- `INV_COND` -/
def invCond [DecidableEq α] (opcode : Opcode α) : Opcode α :=
  if opcode = .jmpz then .jmpnz else .jmpz

namespace OpArray

variable [DecidableEq α]

def replace (code : OpArray α) (place : Nat) (op : Op α) : OpArray α :=
  { code with opcodes := Function.update code.opcodes place op }

/-- The loop through plain jumps, for one field of the opcode at `place`, with the entries of
`jmp_hitlist`, the newest first. -/
def threadPlain (place : Nat) (field : Field) :
    Nat → OpArray α → List Nat → Option (OpArray α × List Nat)
  | 0, _, _ => none
  | fuel + 1, code, hitlist =>
      let target := (code.opcodes place).get field
      if target < code.last ∧ (code.opcodes target).opcode = .jmp then
        let next := (code.opcodes target).op1
        if next ∈ hitlist then some (code, hitlist)
        else threadPlain place field fuel
          (code.replace place ((code.opcodes place).set field next)) (next :: hitlist)
      else some (code, hitlist)

/-- The loop of `ZEND_JMPZ` and `ZEND_JMPNZ`. -/
def threadCond (place : Nat) : Nat → OpArray α → List Nat → Option (OpArray α)
  | 0, _, _ => none
  | fuel + 1, code, hitlist =>
      let op := code.opcodes place
      let target := code.opcodes op.op2
      if op.op2 < code.last then
        if target.opcode = .jmp then
          if target.op1 ∈ hitlist then some code
          else threadCond place fuel (code.replace place (op.set .op2 target.op1))
            (target.op1 :: hitlist)
        else if target.opcode = op.opcode ∧ sameVar op target then
          if target.op2 ∈ hitlist then some code
          else threadCond place fuel (code.replace place (op.set .op2 target.op2))
            (target.op2 :: hitlist)
        else if target.opcode = invCond op.opcode ∧ sameVar op target then
          some (code.replace place (op.set .op2 (op.op2 + 1)))
        else some code
      else some code

/-- More rounds than a loop can make: `jmp_hitlist` never has more entries than this. -/
def rounds (code : OpArray α) : Nat := code.last + 2

/-- One round of the pass; `none` where a loop does not end. -/
def optimize (code : OpArray α) (place : Nat) : Option (OpArray α) :=
  let op := code.opcodes place
  match op.opcode with
  | .jmp =>
      if code.hasFinallyBlock then some code
      else if op.op1 = place + 1 then some (code.replace place op.makeNop)
      else (threadPlain place .op1 code.rounds code []).map Prod.fst
  | .jmpz | .jmpnz =>
      if code.hasFinallyBlock then some code
      else if op.op2 = place + 1 then some (code.replace place op.makeNop)
      else threadCond place code.rounds code []
  | .jmpznz =>
      if code.hasFinallyBlock then some code
      else do
        let (code, hitlist) ← threadPlain place .op2 code.rounds code []
        let (code, _) ← threadPlain place .extendedValue code.rounds code hitlist
        some code
  | _ => some code

def pass3 (code : OpArray α) : Option (OpArray α) :=
  (List.range code.last).foldlM optimize code

end OpArray

/-! ## Execution -/

/-- The opcode behind a jump, for the truth of its condition. -/
def Op.succ (op : Op α) (place : Nat) (truth : Bool) : Option Nat :=
  match op.opcode with
  | .nop => some (place + 1)
  | .jmp => some op.op1
  | .jmpz => some (if truth then place + 1 else op.op2)
  | .jmpnz => some (if truth then op.op2 else place + 1)
  | .jmpznz => some (if truth then op.extendedValue else op.op2)
  | .other _ => none

/-- A meaning of the opcodes that are no jumps, which go on to the next opcode or end the
execution, and of the variables in conditions. -/
structure Meaning (α σ : Type) where
  step : α → σ → Option σ
  truth : OpType → Nat → σ → Bool

section Execution

variable {σ : Type} (meaning : Meaning α σ)

def Meaning.holds (op : Op α) (state : σ) : Bool := meaning.truth op.op1Type op.op1 state

/-- The machine that executes an op array. Its events are the opcodes that are no jumps, with the
states in which they are executed. -/
def Meaning.machine (code : OpArray α) : Nat × σ → Move (Nat × σ) (α × σ)
  | (place, state) =>
      let op := code.opcodes place
      if place < code.last then
        match op.succ place (meaning.holds op state) with
        | some next => .silent (next, state)
        | none =>
            match op.opcode with
            | .other opcode =>
                .emit (opcode, state) ((meaning.step opcode state).map (place + 1, ·))
            | _ => .stop
      else .stop

theorem Meaning.machine_silent {code : OpArray α} {place next : Nat} {state : σ}
    (inside : place < code.last) (succ : (code.opcodes place).succ place
      (meaning.holds (code.opcodes place) state) = some next) :
    meaning.machine code (place, state) = .silent (next, state) := by
  simp only [machine, inside, if_true, succ]

end Execution

/-- The op arrays behave alike under every meaning. -/
def Alike (code other : OpArray α) : Prop :=
  ∀ (σ : Type) (meaning : Meaning α σ) (here : Nat × σ) (events : List (α × σ)),
    Emits (meaning.machine code) here events ↔ Emits (meaning.machine other) here events

theorem Alike.refl (code : OpArray α) : Alike code code := fun _ _ _ _ => Iff.rfl

theorem Alike.trans {code other third : OpArray α} (first : Alike code other)
    (second : Alike other third) : Alike code third := fun σ meaning here events =>
  (first σ meaning here events).trans (second σ meaning here events)

/-- The opcode that replaces the one at `place` jumps to the old target or, past one more jump,
to the target of that. -/
def Redirects (code : OpArray α) (place : Nat) (op : Op α) : Prop :=
  ∀ truth : OpType → Nat → Bool, ∃ old new,
    (code.opcodes place).succ place
        (truth (code.opcodes place).op1Type (code.opcodes place).op1) = some old ∧
      op.succ place (truth op.op1Type op.op1) = some new ∧
      (new = old ∨ old < code.last ∧ (code.opcodes old).succ old
        (truth (code.opcodes old).op1Type (code.opcodes old).op1) = some new)

theorem Redirects.alike [DecidableEq α] {code : OpArray α} {place : Nat} {op : Op α}
    (redirects : Redirects code place op) : Alike code (code.replace place op) := by
  intro σ meaning here events
  apply Shortens.emits_iff
  intro here
  obtain ⟨position, state⟩ := here
  by_cases different : position = place
  · subst different
    by_cases inside : position < code.last
    · right
      obtain ⟨old, new, before, after, path⟩ :=
        redirects (fun type var => meaning.truth type var state)
      have first := meaning.machine_silent inside before
      have replaced : ((code.replace position op).opcodes position).succ position
          (meaning.holds ((code.replace position op).opcodes position) state) = some new := by
        simpa [OpArray.replace, Meaning.holds] using after
      have jump : meaning.machine (code.replace position op) (position, state) =
          .silent (new, state) := meaning.machine_silent inside replaced
      cases path with
      | inl same => exact ⟨(new, state), 0, jump, .step (same ▸ first) (.refl _)⟩
      | inr further =>
          have second := meaning.machine_silent further.1 further.2
          exact ⟨(new, state), 1, jump, .step first (.step second (.refl _))⟩
    · left
      simp only [Meaning.machine, OpArray.replace, inside, if_false]
  · left
    simp [Meaning.machine, OpArray.replace, different]

/-! ## The loops keep the behaviour -/

section Loops

variable {code result : OpArray α} {place : Nat}

theorem Op.get_set (op : Op α) (field : Field) (target : Nat) :
    (op.set field target).get field = target := by
  cases field <;> rfl

/-- The field is a target of the opcode. -/
def Op.Jumps (op : Op α) (field : Field) : Prop :=
  op.opcode = .jmp ∧ field = .op1 ∨
    op.opcode = .jmpznz ∧ (field = .op2 ∨ field = .extendedValue)

theorem redirects_plain {field : Field} (jumps : (code.opcodes place).Jumps field)
    (inside : (code.opcodes place).get field < code.last)
    (plain : (code.opcodes ((code.opcodes place).get field)).opcode = .jmp) :
    Redirects code place ((code.opcodes place).set field
      (code.opcodes ((code.opcodes place).get field)).op1) := by
  intro truth
  have through (truth : Bool) : (code.opcodes ((code.opcodes place).get field)).succ
      ((code.opcodes place).get field) truth =
        some (code.opcodes ((code.opcodes place).get field)).op1 := by
    simp only [Op.succ, plain]
  obtain ⟨opcode, rfl⟩ | ⟨opcode, rfl | rfl⟩ := jumps
  · exact ⟨_, _, by simp only [Op.succ, opcode]; rfl, by simp only [Op.succ, Op.set, opcode],
      Or.inr ⟨inside, through _⟩⟩
  · cases holds : truth (code.opcodes place).op1Type (code.opcodes place).op1 with
    | false =>
        exact ⟨_, _, by simp only [Op.succ, opcode]; rfl,
          by simp only [Op.succ, Op.set, opcode, holds]; rfl, Or.inr ⟨inside, through _⟩⟩
    | true =>
        exact ⟨_, _, by simp only [Op.succ, opcode]; rfl,
          by simp only [Op.succ, Op.set, opcode, holds]; rfl, Or.inl rfl⟩
  · cases holds : truth (code.opcodes place).op1Type (code.opcodes place).op1 with
    | false =>
        exact ⟨_, _, by simp only [Op.succ, opcode]; rfl,
          by simp only [Op.succ, Op.set, opcode, holds]; rfl, Or.inl rfl⟩
    | true =>
        exact ⟨_, _, by simp only [Op.succ, opcode]; rfl,
          by simp only [Op.succ, Op.set, opcode, holds]; rfl, Or.inr ⟨inside, through _⟩⟩

/-- A conditional jump that finds its own variable tested once more. -/
theorem truth_of_sameVar {op other : Op α} (same : sameVar op other = true)
    (truth : OpType → Nat → Bool) :
    truth other.op1Type other.op1 = truth op.op1Type op.op1 := by
  simp only [sameVar, Bool.and_eq_true, beq_iff_eq] at same
  have types : other.op1Type = op.op1Type := by
    have kinds := same.1
    cases first : op.op1Type <;> cases second : other.op1Type <;>
      simp [first, second, OpType.bits] at kinds ⊢
  rw [types, same.2]

/-- The truth at which a conditional jump goes to `op2`. -/
def Op.takenAt (op : Op α) : Bool := op.opcode matches .jmpnz

/-- `op2` of a `JMPZ` or `JMPNZ` moves on to where the opcode there goes. -/
theorem redirects_cond {next : Nat}
    (cond : (code.opcodes place).opcode = .jmpz ∨ (code.opcodes place).opcode = .jmpnz)
    (inside : (code.opcodes place).op2 < code.last)
    (through : ∀ truth : OpType → Nat → Bool,
      truth (code.opcodes place).op1Type (code.opcodes place).op1 =
        (code.opcodes place).takenAt →
      (code.opcodes (code.opcodes place).op2).succ (code.opcodes place).op2
        (truth (code.opcodes (code.opcodes place).op2).op1Type
          (code.opcodes (code.opcodes place).op2).op1) = some next) :
    Redirects code place ((code.opcodes place).set .op2 next) := by
  intro truth
  have taken := through truth
  generalize condition : truth (code.opcodes place).op1Type (code.opcodes place).op1 = holds
    at taken
  cases cond with
  | inl isJmpz =>
      simp only [Op.takenAt, isJmpz] at taken
      cases holds with
      | true =>
          exact ⟨place + 1, place + 1, by simp [Op.succ, isJmpz],
            by simp [Op.succ, Op.set, isJmpz, condition], Or.inl rfl⟩
      | false =>
          exact ⟨(code.opcodes place).op2, next, by simp [Op.succ, isJmpz],
            by simp [Op.succ, Op.set, isJmpz, condition], Or.inr ⟨inside, taken rfl⟩⟩
  | inr isJmpnz =>
      simp only [Op.takenAt, isJmpnz] at taken
      cases holds with
      | true =>
          exact ⟨(code.opcodes place).op2, next, by simp [Op.succ, isJmpnz],
            by simp [Op.succ, Op.set, isJmpnz, condition], Or.inr ⟨inside, taken rfl⟩⟩
      | false =>
          exact ⟨place + 1, place + 1, by simp [Op.succ, isJmpnz],
            by simp [Op.succ, Op.set, isJmpnz, condition], Or.inl rfl⟩

/-- A jump to the next opcode does nothing. -/
theorem redirects_nop (next : ∀ truth, (code.opcodes place).succ place truth = some (place + 1)) :
    Redirects code place (code.opcodes place).makeNop :=
  fun _ => ⟨place + 1, place + 1, next _, rfl, Or.inl rfl⟩

/-- A loop keeps the behaviour, the opcode that it works on and the length. -/
structure Keeps (code result : OpArray α) (place : Nat) : Prop where
  alike : Alike code result
  opcode : (result.opcodes place).opcode = (code.opcodes place).opcode
  last : result.last = code.last

theorem Keeps.refl (code : OpArray α) (place : Nat) : Keeps code code place :=
  ⟨Alike.refl code, rfl, rfl⟩

variable [DecidableEq α]

theorem Keeps.replace {field : Field} {target : Nat}
    (redirects : Redirects code place ((code.opcodes place).set field target))
    (rest : Keeps (code.replace place ((code.opcodes place).set field target)) result place) :
    Keeps code result place := by
  refine ⟨redirects.alike.trans rest.alike, rest.opcode.trans ?_, rest.last⟩
  simp only [OpArray.replace, Function.update_self]
  cases field <;> rfl

theorem threadPlain_keeps {field : Field} {fuel : Nat} {hitlist rest : List Nat}
    (jumps : (code.opcodes place).Jumps field)
    (threaded : OpArray.threadPlain place field fuel code hitlist = some (result, rest)) :
    Keeps code result place := by
  induction fuel generalizing code hitlist with
  | zero => cases threaded
  | succ fuel induction =>
      rw [OpArray.threadPlain] at threaded
      dsimp only at threaded
      split at threaded
      · rename_i plain
        split at threaded
        · cases threaded
          exact Keeps.refl _ place
        · apply Keeps.replace (redirects_plain jumps plain.1 plain.2)
          apply induction _ threaded
          simp only [Op.Jumps, OpArray.replace, Function.update_self]
          cases field <;> exact jumps
      · cases threaded
        exact Keeps.refl _ place

theorem threadCond_keeps {fuel : Nat} {hitlist : List Nat}
    (cond : (code.opcodes place).opcode = .jmpz ∨ (code.opcodes place).opcode = .jmpnz)
    (threaded : OpArray.threadCond place fuel code hitlist = some result) :
    Keeps code result place := by
  induction fuel generalizing code hitlist with
  | zero => cases threaded
  | succ fuel induction =>
      have again (target : Nat) : ((code.replace place
          ((code.opcodes place).set .op2 target)).opcodes place).opcode = .jmpz ∨
          ((code.replace place ((code.opcodes place).set .op2 target)).opcodes place).opcode =
            .jmpnz := by
        simp only [OpArray.replace, Function.update_self]
        exact cond
      rw [OpArray.threadCond] at threaded
      split at threaded
      · rename_i inside
        split at threaded
        · rename_i plain
          split at threaded
          · cases threaded
            exact Keeps.refl _ place
          · apply Keeps.replace (redirects_cond cond inside _) (induction (again _) threaded)
            intro truth _
            simp only [Op.succ, plain]
        · split at threaded
          · rename_i same
            split at threaded
            · cases threaded
              exact Keeps.refl _ place
            · -- the condition has the same outcome at the target
              apply Keeps.replace (redirects_cond cond inside _) (induction (again _) threaded)
              intro truth holds
              rw [truth_of_sameVar same.2 truth, holds]
              cases cond with
              | inl isJmpz => simp [Op.succ, same.1, isJmpz, Op.takenAt]
              | inr isJmpnz => simp [Op.succ, same.1, isJmpnz, Op.takenAt]
          · split at threaded
            · rename_i inverted
              cases threaded
              -- the inverted jump is not taken
              apply Keeps.replace (redirects_cond cond inside _) (Keeps.refl _ place)
              intro truth holds
              rw [truth_of_sameVar inverted.2 truth, holds]
              cases cond with
              | inl isJmpz =>
                  simp [Op.succ, inverted.1, isJmpz, Op.takenAt, invCond]
              | inr isJmpnz =>
                  simp [Op.succ, inverted.1, isJmpnz, Op.takenAt, invCond]
            · cases threaded
              exact Keeps.refl _ place
      · cases threaded
        exact Keeps.refl _ place

end Loops

/-! ## The loops end

Each round but the last puts the place of another opcode on the hit list. -/

section Ends

variable [DecidableEq α] {code : OpArray α} {place : Nat}

/-- The number of opcodes on the hit list. -/
def hits (last : Nat) (hitlist : List Nat) : Nat := (hitlist.filter (· < last)).length

theorem hits_le {l : Nat} {hitlist : List Nat} (nodup : hitlist.Nodup) :
    hits l hitlist ≤ l := by
  have inside : hitlist.filter (· < l) ⊆ List.range l := by
    intro place member
    simpa using (List.mem_filter.mp member).2
  have bound := ((nodup.filter _).subperm inside).length_le
  rwa [List.length_range] at bound

theorem hits_cons {last next : Nat} (hitlist : List Nat) (inside : next < last) :
    hits last (next :: hitlist) = hits last hitlist + 1 := by
  simp [hits, inside]

theorem threadPlain_ends {field : Field} {fuel : Nat} {hitlist : List Nat}
    (nodup : hitlist.Nodup) (enough : code.last + 1 < hits code.last hitlist + fuel) :
    ∃ result rest, OpArray.threadPlain place field fuel code hitlist = some (result, rest) ∧
      rest.Nodup := by
  induction fuel generalizing code hitlist with
  | zero =>
      have bound := hits_le (l := code.last) nodup
      omega
  | succ fuel induction =>
      have bound := hits_le (l := code.last) nodup
      rw [OpArray.threadPlain]
      dsimp only
      split
      · split
        · exact ⟨code, hitlist, rfl, nodup⟩
        · rename_i fresh
          have pushed := List.nodup_cons.mpr ⟨fresh, nodup⟩
          generalize (code.opcodes ((code.opcodes place).get field)).op1 = next at pushed ⊢
          by_cases inside : next < code.last
          · apply induction pushed
            simp only [OpArray.replace, hits_cons hitlist inside]
            omega
          · -- the loop ends behind the last opcode
            obtain ⟨less, rfl⟩ := Nat.exists_eq_add_of_lt (show 0 < fuel by omega)
            refine ⟨code.replace place ((code.opcodes place).set field next), next :: hitlist, ?_,
              pushed⟩
            rw [Nat.zero_add, OpArray.threadPlain]
            simp only [OpArray.replace, Function.update_self, Op.get_set, inside, false_and,
              if_false]
      · exact ⟨code, hitlist, rfl, nodup⟩

theorem threadCond_ends {fuel : Nat} {hitlist : List Nat} (nodup : hitlist.Nodup)
    (enough : code.last + 1 < hits code.last hitlist + fuel) :
    ∃ result, OpArray.threadCond place fuel code hitlist = some result := by
  induction fuel generalizing code hitlist with
  | zero =>
      have bound := hits_le (l := code.last) nodup
      omega
  | succ fuel induction =>
      have bound := hits_le (l := code.last) nodup
      have further (next : Nat) (fresh : next ∉ hitlist) : ∃ result,
          OpArray.threadCond place fuel
            (code.replace place ((code.opcodes place).set .op2 next)) (next :: hitlist) =
              some result := by
        by_cases inside : next < code.last
        · apply induction (List.nodup_cons.mpr ⟨fresh, nodup⟩)
          simp only [OpArray.replace, hits_cons hitlist inside]
          omega
        · obtain ⟨less, rfl⟩ := Nat.exists_eq_add_of_lt (show 0 < fuel by omega)
          refine ⟨code.replace place ((code.opcodes place).set .op2 next), ?_⟩
          rw [Nat.zero_add, OpArray.threadCond]
          simp only [OpArray.replace, Function.update_self, Op.set, inside, if_false]
      rw [OpArray.threadCond]
      split
      · split
        · split
          · exact ⟨code, rfl⟩
          · rename_i fresh
            exact further _ fresh
        · split
          · split
            · exact ⟨code, rfl⟩
            · rename_i fresh
              exact further _ fresh
          · split
            · exact ⟨_, rfl⟩
            · exact ⟨code, rfl⟩
      · exact ⟨code, rfl⟩

end Ends

/-- A round of the pass ends and keeps the behaviour. -/
theorem optimize_alike [DecidableEq α] (code : OpArray α) (place : Nat) : ∃ result,
    code.optimize place = some result ∧ Alike code result := by
  have rounds : code.last + 1 < hits code.last [] + code.rounds := by
    simp [hits, OpArray.rounds]
  have unchanged (same : code.optimize place = some code) :
      ∃ result, code.optimize place = some result ∧ Alike code result :=
    ⟨code, same, Alike.refl code⟩
  cases opcode : (code.opcodes place).opcode with
  | nop => exact unchanged (by simp only [OpArray.optimize, opcode])
  | other _ => exact unchanged (by simp only [OpArray.optimize, opcode])
  | jmp =>
      by_cases finallyBlock : code.hasFinallyBlock = true
      · exact unchanged (by simp only [OpArray.optimize, opcode, finallyBlock, if_true])
      · simp only [OpArray.optimize, opcode, finallyBlock]
        by_cases next : (code.opcodes place).op1 = place + 1
        · rw [if_pos next]
          refine ⟨_, rfl, (redirects_nop fun truth => ?_).alike⟩
          simp only [Op.succ, opcode, next]
        · rw [if_neg next]
          have ends : ∃ result rest, OpArray.threadPlain place .op1 code.rounds code [] =
              some (result, rest) ∧ rest.Nodup := threadPlain_ends List.nodup_nil rounds
          obtain ⟨result, rest, threaded, -⟩ := ends
          refine ⟨result, by rw [threaded]; rfl, ?_⟩
          exact (threadPlain_keeps (Or.inl ⟨opcode, rfl⟩) threaded).alike
  | jmpz | jmpnz =>
      by_cases finallyBlock : code.hasFinallyBlock = true
      · exact unchanged (by simp only [OpArray.optimize, opcode, finallyBlock, if_true])
      · simp only [OpArray.optimize, opcode, finallyBlock]
        by_cases next : (code.opcodes place).op2 = place + 1
        · rw [if_pos next]
          refine ⟨_, rfl, (redirects_nop fun truth => ?_).alike⟩
          simp only [Op.succ, opcode, next, ite_self]
        · rw [if_neg next]
          have ends : ∃ result, OpArray.threadCond place code.rounds code [] = some result :=
            threadCond_ends List.nodup_nil rounds
          obtain ⟨result, threaded⟩ := ends
          exact ⟨result, threaded, (threadCond_keeps (by simp [opcode]) threaded).alike⟩
  | jmpznz =>
      by_cases finallyBlock : code.hasFinallyBlock = true
      · exact unchanged (by simp only [OpArray.optimize, opcode, finallyBlock, if_true])
      · have ends : ∃ middle rest, OpArray.threadPlain place .op2 code.rounds code [] =
            some (middle, rest) ∧ rest.Nodup := threadPlain_ends List.nodup_nil rounds
        obtain ⟨middle, rest, first, nodup⟩ := ends
        have kept := threadPlain_keeps (Or.inr ⟨opcode, Or.inl rfl⟩) first
        -- the second loop goes on with the entries of the first one
        have endsToo : ∃ result left, OpArray.threadPlain place .extendedValue middle.rounds middle
            rest = some (result, left) ∧ left.Nodup :=
          threadPlain_ends nodup (by simp only [OpArray.rounds]; omega)
        obtain ⟨result, left, second, -⟩ := endsToo
        refine ⟨result, ?_, kept.alike.trans ?_⟩
        · simp [OpArray.optimize, opcode, finallyBlock, first, second]
        · exact (threadPlain_keeps (Or.inr ⟨kept.opcode.trans opcode, Or.inr rfl⟩) second).alike

/-- The jump part of pass 3 ends, and the op array emits the same opcodes in the same states
before and after it, from every entry and under every meaning of the opcodes that are no
jumps. -/
theorem pass3_alike [DecidableEq α] (code : OpArray α) :
    ∃ result, code.pass3 = some result ∧ Alike code result := by
  suffices general : ∀ (places : List Nat) (code : OpArray α), ∃ result,
      places.foldlM OpArray.optimize code = some result ∧ Alike code result from
    general (List.range code.last) code
  intro places
  induction places with
  | nil => exact fun code => ⟨code, rfl, Alike.refl code⟩
  | cons place places induction =>
      intro code
      obtain ⟨middle, optimized, first⟩ := optimize_alike code place
      obtain ⟨result, rest, second⟩ := induction middle
      refine ⟨result, ?_, first.trans second⟩
      rw [List.foldlM_cons, optimized]
      exact rest

end PhpRuntime.Opcache.JumpThreading
